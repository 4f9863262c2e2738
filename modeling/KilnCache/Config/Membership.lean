import KilnCache.Config.Load

/-! # From a configuration to a ring

`ParsePeers` trims the names of the peers, `Validate` compares them as they are, and `cluster.New`
trims them again; the name of the node is trimmed nowhere. A configuration with a peer list therefore
builds a ring, and the membership that `Load` makes up for a node without peers does when the name of
the node has no white space around it (`load_builds_ring_iff`). -/

namespace KilnCache

/-! ## Trimming -/

/-- `strings.TrimSpace` drops white space at both ends. -/
theorem trimSpace_eq (s : String) :
    (trimSpace s).toList = (s.toList.dropWhile isSpace).rdropWhile isSpace := by
  simp [trimSpace, List.rdropWhile]

/-- Trimming twice is trimming once. -/
theorem trimSpace_trimSpace (s : String) : trimSpace (trimSpace s) = trimSpace s := by
  rw [← String.toList_inj, trimSpace_eq, trimSpace_eq]
  have hfront : ((s.toList.dropWhile isSpace).rdropWhile isSpace).dropWhile isSpace =
      (s.toList.dropWhile isSpace).rdropWhile isSpace := by
    rw [List.dropWhile_eq_self_iff]
    intro hpos
    -- the first character that is left is the first one that is no space
    have hpre := List.rdropWhile_prefix isSpace (s.toList.dropWhile isSpace)
    have hhead := List.dropWhile_eq_self_iff.mp (List.dropWhile_idempotent isSpace s.toList)
      (hpos.trans_le hpre.length_le)
    rwa [← hpre.getElem hpos] at hhead
  rw [hfront, List.rdropWhile_idempotent]

/-! ## Peer lists -/

/-- The name of a parsed peer is trimmed. -/
theorem parsePeer_name {part : String} {p : Peer} (h : parsePeer part = .ok p) :
    trimSpace p.name = p.name := by
  unfold parsePeer at h
  split at h
  · cases h
  · split at h
    · cases h
    · cases h
      exact trimSpace_trimSpace _

/-- So are the names of a list of them. -/
theorem parsePeerList_name {parts : List String} {ps : List Peer} (h : parsePeerList parts = .ok ps) :
    ∀ p ∈ ps, trimSpace p.name = p.name := by
  induction parts generalizing ps with
  | nil =>
    cases h
    exact fun p hp => absurd hp List.not_mem_nil
  | cons part parts ih =>
    rw [parsePeerList] at h
    split at h
    · exact ih h
    · split at h
      · cases h
      · rename_i p hp
        cases hrest : parsePeerList parts with
        | error err =>
          rw [hrest] at h
          cases h
        | ok rest =>
          rw [hrest] at h
          cases h
          intro q hq
          rcases List.mem_cons.mp hq with rfl | hq
          · exact parsePeer_name hp
          · exact ih hrest q hq

/-- **`ParsePeers` trims the names.** -/
theorem parsePeers_name {s : String} {ps : List Peer} (h : parsePeers s = .ok ps) :
    ∀ p ∈ ps, trimSpace p.name = p.name := by
  unfold parsePeers at h
  split at h
  · cases h
    exact fun p hp => absurd hp List.not_mem_nil
  · exact parsePeerList_name h

/-- So are those of the value of a flag. -/
theorem peerList_name {raw : String} {ps : List Peer} (h : Flags.peerList raw = .ok ps) :
    ∀ p ∈ ps, trimSpace p.name = p.name := by
  unfold Flags.peerList at h
  split at h
  · cases h
    exact fun p hp => absurd hp List.not_mem_nil
  · split at h
    · cases h
    · rename_i hps
      cases h
      exact parsePeers_name hps

/-! ## Validation -/

/-- What the loop over the peers establishes. -/
theorem checkPeers_eq_none {L : Lib} {ps : List Peer} {seen : List String}
    (h : Config.checkPeers L ps seen = none) :
    (∀ p ∈ ps, trimSpace p.name ≠ "") ∧ (ps.map Peer.name).Nodup ∧
      ∀ p ∈ ps, p.name ∉ seen := by
  induction ps generalizing seen with
  | nil => simp
  | cons p ps ih =>
    rw [Config.checkPeers] at h
    split at h
    · cases h
    · rename_i hp
      obtain ⟨hnames, hnodup, hseen⟩ := ih h
      have hself : trimSpace p.name ≠ "" ∧ p.name ∉ seen := by
        unfold Config.checkPeer at hp
        split at hp
        · cases hp
        · split at hp
          · cases hp
          · exact ⟨by assumption, by assumption⟩
      refine ⟨?_, ?_, ?_⟩
      · intro q hq
        rcases List.mem_cons.mp hq with rfl | hq
        · exact hself.1
        · exact hnames q hq
      · rw [List.map_cons, List.nodup_cons]
        refine ⟨fun hm => ?_, hnodup⟩
        obtain ⟨q, hq, heq⟩ := List.mem_map.mp hm
        exact hseen q hq (heq ▸ List.mem_cons_self)
      · intro q hq
        rcases List.mem_cons.mp hq with rfl | hq
        · exact hself.2
        · exact fun hm => hseen q hq (List.mem_cons_of_mem _ hm)

/-- What `Validate` establishes about the membership. -/
structure Valid (c : Config) : Prop where
  name : trimSpace c.nodeName ≠ ""
  replicas : 1 ≤ c.replicaCount ∧ c.replicaCount ≤ c.peers.length
  names : ∀ p ∈ c.peers, trimSpace p.name ≠ ""
  nodup : (c.peers.map Peer.name).Nodup
  self : c.nodeName ∈ c.peers.map Peer.name

/-- A check that was passed. -/
theorem check_eq_none {c : Prop} [Decidable c] {err : Err} {rest : Option Err}
    (h : (if c then some err else rest) = none) : ¬c ∧ rest = none := by
  split at h
  · cases h
  · exact ⟨by assumption, h⟩

/-- What passes `validate` is valid. -/
theorem valid_of_validate {L : Lib} {c : Config} (h : c.validate L = none) : Valid c := by
  unfold Config.validate at h
  obtain ⟨hname, h⟩ := check_eq_none h
  obtain ⟨-, h⟩ := check_eq_none h
  obtain ⟨-, h⟩ := check_eq_none h
  obtain ⟨-, h⟩ := check_eq_none h
  obtain ⟨-, h⟩ := check_eq_none h
  obtain ⟨-, h⟩ := check_eq_none h
  obtain ⟨-, h⟩ := check_eq_none h
  obtain ⟨hreplicas, h⟩ := check_eq_none h
  obtain ⟨-, h⟩ := check_eq_none h
  obtain ⟨hsize, h⟩ := check_eq_none h
  obtain ⟨-, h⟩ := check_eq_none h
  obtain ⟨-, h⟩ := check_eq_none h
  split at h
  · cases h
  · rename_i hpeers
    split at h
    · rename_i hself
      obtain ⟨hnames, hnodup, -⟩ := checkPeers_eq_none hpeers
      obtain ⟨p, hp, heq⟩ := List.any_eq_true.mp hself
      exact ⟨hname, ⟨by omega, by omega⟩, hnames, hnodup,
        List.mem_map.mpr ⟨p, hp, of_decide_eq_true heq⟩⟩
    · cases h

/-! ## Building the ring -/

/-- The loop of `New` accepts names that are distinct and not empty after trimming. -/
theorem collect_of_nodup (sha : Hash) {ps : List Peer} (acc : Ring.Distinct)
    (hnames : ∀ p ∈ ps, trimSpace p.name ≠ "")
    (hnodup : (acc.1.map Member.name ++ ps.map fun p => trimSpace p.name).Nodup) :
    ∃ ms, Ring.collect sha ps acc = .ok ms := by
  induction ps generalizing acc with
  | nil => exact ⟨acc, rfl⟩
  | cons p ps ih =>
    rw [List.map_cons, List.nodup_append] at hnodup
    have hfresh : trimSpace p.name ∉ acc.1.map Member.name :=
      fun hm => hnodup.2.2 _ hm _ List.mem_cons_self rfl
    rw [Ring.collect, if_neg (hnames p List.mem_cons_self), dif_neg hfresh]
    refine ih _ (fun q hq => hnames q (List.mem_cons_of_mem p hq)) ?_
    rw [List.map_append, List.append_assoc, List.nodup_append]
    exact hnodup

/-- **`New` succeeds** when the names are distinct and not empty after trimming and the node is among
them. -/
theorem new_of_mem (sha : Hash) {ps : List Peer} {self : String}
    (hnames : ∀ p ∈ ps, trimSpace p.name ≠ "") (hnodup : (ps.map fun p => trimSpace p.name).Nodup)
    (hself : self ∈ ps.map fun p => trimSpace p.name) :
    ∃ r, Ring.new sha ps self = .ok r := by
  obtain ⟨ms, hms⟩ := collect_of_nodup sha ⟨[], List.nodup_nil⟩ hnames (by simpa using hnodup)
  have heq := Ring.collect_eq_ok sha hms
  rw [List.nil_append] at heq
  have hmem : self ∈ ms.1.map Member.name := by
    rw [heq, List.map_map]
    exact hself
  unfold Ring.new
  rw [hms]
  dsimp only
  rw [dif_neg (fun hnil => by rw [hnil] at hmem; exact absurd hmem List.not_mem_nil),
    dif_neg (fun hne => hne.2 hmem)]
  exact ⟨_, rfl⟩

/-- The names of a ring are the trimmed names of its peers. -/
theorem mem_names_of_new {sha : Hash} {ps : List Peer} {self : String} {r : Ring}
    (h : Ring.new sha ps self = .ok r) {name : String} :
    name ∈ r.members.map Member.name ↔ name ∈ ps.map fun p => trimSpace p.name := by
  rw [Ring.members_of_new sha h, ((Ring.sortByName_perm _).map Member.name).mem_iff, List.map_map]
  rfl

/-- A ring has a member for each peer. -/
theorem length_of_new {sha : Hash} {ps : List Peer} {self : String} {r : Ring}
    (h : Ring.new sha ps self = .ok r) : r.members.length = ps.length := by
  rw [Ring.members_of_new sha h, (Ring.sortByName_perm _).length_eq, List.length_map]

/-! ## Loading -/

/-- A sequence succeeds if both of its parts do. -/
theorem bind_eq_ok {α β : Type} {x : Except Err α} {f : α → Except Err β} {b : β}
    (h : (x >>= f) = .ok b) : ∃ a, x = .ok a ∧ f a = .ok b := by
  cases x with
  | error err => cases h
  | ok a => exact ⟨a, rfl, h⟩

/-- A fallback leaves alone what its field does not show. -/
theorem fallback_keeps {α β : Type} {env : String → Option String} {flag key : String}
    {parse : String → Except Err α} {f : Config → α → Config} {st st' : Flags} (g : Config → β)
    (h : st.fallback env flag key parse f = .ok st') (hg : ∀ c a, g (f c a) = g c) :
    g st'.cfg = g st.cfg := by
  unfold Flags.fallback at h
  split at h
  · cases h
    rfl
  · split at h
    · cases h
      rfl
    · split at h
      · cases h
      · cases h
        exact hg _ _

/-- The name the operator gave: by flag, by environment, or the default. -/
def givenName (L : Lib) (args : List String) (env : String → Option String) : String :=
  match Flags.initial.parse L args with
  | .error _ => ""
  | .ok st =>
    if "node-name" ∈ st.set then st.cfg.nodeName
    else (env "KILNCACHE_NODE_NAME").getD st.cfg.nodeName

/-- The environment names the node where no flag did. -/
theorem applyEnv_nodeName {L : Lib} {env : String → Option String} {st st' : Flags}
    (h : st.applyEnv L env = .ok st') :
    st'.cfg.nodeName = if "node-name" ∈ st.set then st.cfg.nodeName
      else (env "KILNCACHE_NODE_NAME").getD st.cfg.nodeName := by
  unfold Flags.applyEnv at h
  obtain ⟨st₁, h₁, h⟩ := bind_eq_ok h
  have hname : st₁.cfg.nodeName = if "node-name" ∈ st.set then st.cfg.nodeName
      else (env "KILNCACHE_NODE_NAME").getD st.cfg.nodeName := by
    unfold Flags.fallback at h₁
    rw [show "KILNCACHE_" ++ "NODE_NAME" = "KILNCACHE_NODE_NAME" by decide] at h₁
    split at h₁
    · rename_i hset
      cases h₁
      rw [if_pos hset]
    · rename_i hset
      rw [if_neg hset]
      split at h₁
      · rename_i henv
        cases h₁
        rw [henv]
        rfl
      · rename_i v henv
        cases h₁
        rw [henv]
        rfl
  rw [← hname]
  -- the other fallbacks set other fields
  have keeps : ∀ {α : Type} {flag key : String} {parse : String → Except Err α}
      {f : Config → α → Config} {a : Flags} {k : Flags → Except Err Flags},
      (a.fallback env flag key parse f >>= k) = .ok st' → (∀ c x, (f c x).nodeName = c.nodeName) →
      ∃ b, k b = .ok st' ∧ b.cfg.nodeName = a.cfg.nodeName := by
    intro α flag key parse f a k h hf
    obtain ⟨b, hb, h⟩ := bind_eq_ok h
    exact ⟨b, h, fallback_keeps Config.nodeName hb hf⟩
  obtain ⟨st₂, h, e₂⟩ := keeps h fun _ _ => rfl
  obtain ⟨st₃, h, e₃⟩ := keeps h fun _ _ => rfl
  obtain ⟨st₄, h, e₄⟩ := keeps h fun _ _ => rfl
  obtain ⟨st₅, h, e₅⟩ := keeps h fun _ _ => rfl
  obtain ⟨st₆, h, e₆⟩ := keeps h fun _ _ => rfl
  obtain ⟨st₇, h, e₇⟩ := keeps h fun _ _ => rfl
  obtain ⟨st₈, h, e₈⟩ := keeps h fun _ _ => rfl
  obtain ⟨st₉, h, e₉⟩ := keeps h fun _ _ => rfl
  obtain ⟨st₁₀, h, e₁₀⟩ := keeps h fun _ _ => rfl
  obtain ⟨st₁₁, h, e₁₁⟩ := keeps h fun _ _ => rfl
  obtain ⟨st₁₂, h, e₁₂⟩ := keeps h fun _ _ => rfl
  obtain ⟨st₁₃, h, e₁₃⟩ := keeps h fun _ _ => rfl
  have e := fallback_keeps Config.nodeName h fun _ _ => rfl
  exact e.trans (e₁₃.trans (e₁₂.trans (e₁₁.trans (e₁₀.trans (e₉.trans (e₈.trans (e₇.trans
    (e₆.trans (e₅.trans (e₄.trans (e₃.trans e₂)))))))))))

/-- The membership of a resolved configuration: the given peers, or the node alone. -/
theorem resolve_peers {L : Lib} {st : Flags} {cfg : Config} (h : st.resolve L = .ok cfg) :
    cfg.nodeName = st.cfg.nodeName ∧
      ((∃ url, cfg.peers = [⟨cfg.nodeName, url⟩]) ∨ ∀ p ∈ cfg.peers, trimSpace p.name = p.name) := by
  unfold Flags.resolve at h
  obtain ⟨maxBytes, -, h⟩ := bind_eq_ok h
  obtain ⟨maxObjectBytes, -, h⟩ := bind_eq_ok h
  obtain ⟨peers, hpeers, h⟩ := bind_eq_ok h
  dsimp only at h
  split at h
  · cases h
    exact ⟨rfl, Or.inl ⟨_, rfl⟩⟩
  · cases h
    exact ⟨rfl, Or.inr (peerList_name hpeers)⟩

/-- What an accepted configuration is. -/
theorem load_eq_ok {L : Lib} {args : List String} {env : String → Option String} {cfg : Config}
    (h : Config.load L args env = .ok cfg) :
    Valid cfg ∧ cfg.nodeName = givenName L args env ∧
      ((∃ url, cfg.peers = [⟨cfg.nodeName, url⟩]) ∨ ∀ p ∈ cfg.peers, trimSpace p.name = p.name) := by
  unfold Config.load at h
  obtain ⟨st, hparse, h⟩ := bind_eq_ok h
  obtain ⟨st', henv, h⟩ := bind_eq_ok h
  obtain ⟨cfg', hresolve, h⟩ := bind_eq_ok h
  split at h
  · cases h
  · rename_i hvalid
    cases h
    obtain ⟨hname, hpeers⟩ := resolve_peers hresolve
    refine ⟨valid_of_validate hvalid, ?_, hpeers⟩
    rw [hname, applyEnv_nodeName henv, givenName, hparse]

/-- A ring that the node is a member of and that has enough members. -/
def BuildsRing (sha : Hash) (cfg : Config) : Prop :=
  ∃ r, Ring.new sha cfg.peers cfg.nodeName = .ok r ∧ r.self ∈ r.members.map Member.name ∧
    1 ≤ cfg.replicaCount ∧ cfg.replicaCount ≤ r.members.length

/-- **An accepted configuration builds a ring exactly when the name of the node was given without
white space around it.** -/
theorem load_builds_ring_iff (sha : Hash) (L : Lib) (args : List String)
    (env : String → Option String) (cfg : Config) (h : Config.load L args env = .ok cfg) :
    BuildsRing sha cfg ↔ trimSpace (givenName L args env) = givenName L args env := by
  obtain ⟨hvalid, hname, hpeers⟩ := load_eq_ok h
  rw [← hname]
  constructor
  · rintro ⟨r, hnew, hself, -⟩
    rw [Ring.self_of_new sha hnew, mem_names_of_new hnew] at hself
    obtain ⟨p, -, heq⟩ := List.mem_map.mp hself
    rw [← heq]
    exact trimSpace_trimSpace p.name
  · intro htrim
    have htrimmed : ∀ p ∈ cfg.peers, trimSpace p.name = p.name := by
      rcases hpeers with ⟨url, heq⟩ | hall
      · intro p hp
        rw [heq, List.mem_singleton] at hp
        rw [hp]
        exact htrim
      · exact hall
    have hmap : (cfg.peers.map fun p => trimSpace p.name) = cfg.peers.map Peer.name :=
      List.map_congr_left htrimmed
    obtain ⟨r, hnew⟩ := new_of_mem sha hvalid.names (hmap ▸ hvalid.nodup) (hmap ▸ hvalid.self)
    refine ⟨r, hnew, ?_, hvalid.replicas.1, ?_⟩
    · rw [Ring.self_of_new sha hnew, mem_names_of_new hnew, hmap]
      exact hvalid.self
    · rw [length_of_new hnew]
      exact hvalid.replicas.2

/-- A library that reads no number and no URL but the one of a node alone. -/
def Lib.trivial : Lib where
  parseFloat _ := .error (.other "invalid syntax")
  scale _ _ := 0
  parseInt _ := .error (.other "invalid syntax")
  parseLiteral _ := .error (.other "invalid syntax")
  atoi _ := .error (.other "invalid syntax")
  parseBool _ := .error (.other "invalid syntax")
  parseDuration _ := .error (.other "invalid syntax")
  toLower s := s
  toUpper s := s
  parseURL raw :=
    if raw = "http://127.0.0.1:8080" then .ok ("http", "127.0.0.1:8080")
    else .error (.other "parse: invalid URI for request")

/-- The configuration of a node without flags but its name, alone in its cluster. -/
def Config.solo (name : String) : Config :=
  { Config.defaults with
    nodeName := name
    peers := [⟨name, "http://127.0.0.1:8080"⟩]
    replicaCount := 1 }

/-- A node on its own, by its flags. -/
theorem load_builds_ring_iff_solo :
    Config.load Lib.trivial ["--node-name", "a"] (fun _ => none) = .ok (Config.solo "a") ∧
      (BuildsRing Hash.length (Config.solo "a") ↔
        trimSpace (givenName Lib.trivial ["--node-name", "a"] fun _ => none) =
          givenName Lib.trivial ["--node-name", "a"] fun _ => none) :=
  have h : Config.load Lib.trivial ["--node-name", "a"] (fun _ => none) = .ok (Config.solo "a") := by
    decide +kernel
  ⟨h, load_builds_ring_iff Hash.length Lib.trivial _ _ _ h⟩

/-- A node whose name begins with a space is accepted, and is no member of the ring of its peers. -/
theorem load_accepts_untrimmed :
    Config.load Lib.trivial ["--node-name", " a"] (fun _ => none) = .ok (Config.solo " a") ∧
      ∀ sha, ¬BuildsRing sha (Config.solo " a") := by
  refine ⟨by decide +kernel, ?_⟩
  rintro sha ⟨r, hnew, hself, -⟩
  rw [Ring.self_of_new sha hnew, mem_names_of_new hnew] at hself
  exact absurd hself (by decide)

end KilnCache
