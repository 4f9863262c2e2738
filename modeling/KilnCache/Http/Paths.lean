import KilnCache.Http.Router

/-! # Cache paths

Two functions decide what a cache path is: `isCachePath` of the router (`internal/httpapi/router.go`),
which sends a request to the cache handler or to the mux, and `parsePath` of the handler. The handler
accepts the grammar `["/"] ["cache/"] NS "/" KEY ["/"]` (`CachePath`), with the namespace in any case;
the router compares the namespace as it is written. -/

namespace KilnCache

/-- `objectURL`. -/
def objectURL (peer : Member) (ns : Namespace) (key : String) : String :=
  peer.url ++ "/" ++ ns.string ++ "/" ++ key

/-! ## The grammar -/

/-- 64 lowercase hex characters. -/
def IsKey (key : String) : Prop := key.length = hashLen ∧ ∀ c ∈ key.toList, isHexDigit c = true

/-- An optional piece of a path. -/
def optional (present : Bool) (s : String) : String := if present then s else ""

/-- A namespace in any case. -/
def Spells (seg : List Char) (ns : Namespace) : Prop := seg.map Char.toLower = ns.string.toList

instance (seg : List Char) (ns : Namespace) : Decidable (Spells seg ns) :=
  inferInstanceAs (Decidable (_ = _))

/-- **The cache path grammar**, with what a path denotes. -/
inductive CachePath (ns : Namespace) (key : String) : String → Prop where
  | mk (lead mount trail : Bool) (seg : String) (hseg : Spells seg.toList ns) (hkey : IsKey key) :
      CachePath ns key
        (optional lead "/" ++ optional mount "cache/" ++ seg ++ "/" ++ key ++ optional trail "/")

/-! ## Trimming and cutting -/

/-- A prefix that is there is trimmed. -/
theorem trimPrefix_append (pre s : List Char) : trimPrefix pre (pre ++ s) = s := by
  unfold trimPrefix
  rw [if_pos (List.isPrefixOf_iff_prefix.mpr (List.prefix_append pre s)), List.drop_left]

/-- One that is not there is not. -/
theorem trimPrefix_of_not {pre s : List Char} (h : ¬pre <+: s) : trimPrefix pre s = s := by
  unfold trimPrefix
  rw [if_neg fun hp => h (List.isPrefixOf_iff_prefix.mp hp)]

/-- What was trimmed is the prefix or nothing. -/
theorem eq_append_trimPrefix (pre s : List Char) :
    ∃ present : Bool, s = (if present then pre else []) ++ trimPrefix pre s := by
  by_cases h : pre <+: s
  · obtain ⟨t, rfl⟩ := h
    exact ⟨true, by rw [trimPrefix_append]; rfl⟩
  · exact ⟨false, by rw [trimPrefix_of_not h]; rfl⟩

/-- A last character that is there is trimmed. -/
theorem trimSuffix_concat (c : Char) (s : List Char) : trimSuffix c (s ++ [c]) = s := by
  simp [trimSuffix]

/-- One that is not there is not. -/
theorem trimSuffix_of_ne {c : Char} {s : List Char} (h : s.getLast? ≠ some c) :
    trimSuffix c s = s := if_neg h

/-- What was trimmed is the suffix or nothing. -/
theorem eq_trimSuffix_append (c : Char) (s : List Char) :
    ∃ present : Bool, s = trimSuffix c s ++ (if present then [c] else []) := by
  by_cases h : s.getLast? = some c
  · refine ⟨true, ?_⟩
    rw [trimSuffix, if_pos h]
    exact (List.dropLast_append_getLast? c h).symm
  · exact ⟨false, by rw [trimSuffix_of_ne h]; simp⟩

/-- `strings.Cut` at the first slash. -/
theorem cut_append {seg : List Char} (key : List Char) (h : '/' ∉ seg) :
    (seg ++ '/' :: key).takeWhile (· ≠ '/') = seg ∧
      (seg ++ '/' :: key).dropWhile (· ≠ '/') = '/' :: key := by
  have hpos : ∀ c ∈ seg, decide (c ≠ '/') = true := fun c hc => by
    simpa using fun heq : c = '/' => h (heq ▸ hc)
  constructor
  · rw [List.takeWhile_append_of_pos hpos]
    simp
  · rw [List.dropWhile_append_of_pos hpos]
    simp

/-- A text with a slash is cut at the first one. -/
theorem eq_cut {s : List Char} {c : Char} {rest : List Char}
    (h : s.dropWhile (· ≠ '/') = c :: rest) : s = s.takeWhile (· ≠ '/') ++ '/' :: rest := by
  have hc : c = '/' := by
    have hhead := List.head?_dropWhile_not (fun x : Char => decide (x ≠ '/')) s
    rw [h] at hhead
    simpa using hhead
  rw [hc] at h
  calc s = s.takeWhile (· ≠ '/') ++ s.dropWhile (· ≠ '/') :=
        List.takeWhile_append_dropWhile.symm
    _ = s.takeWhile (· ≠ '/') ++ '/' :: rest := by rw [h]

/-! ## Keys and namespaces -/

/-- A hex digit takes one byte. -/
theorem utf8Size_of_isHexDigit {c : Char} (h : isHexDigit c = true) : c.utf8Size = 1 := by
  simp only [isHexDigit, Bool.or_eq_true, Bool.and_eq_true, decide_eq_true_eq] at h
  have hle : c.toNat ≤ 127 := by
    rcases h with ⟨-, h⟩ | ⟨-, h⟩
    · exact le_trans (show c.toNat ≤ 57 from h) (by decide)
    · exact le_trans (show c.toNat ≤ 102 from h) (by decide)
  exact if_pos hle

/-- Hexadecimal digits take one byte each. -/
theorem utf8Len_of_isHexDigit {cs : List Char} (h : ∀ c ∈ cs, isHexDigit c = true) :
    String.utf8Len cs = cs.length := by
  induction cs with
  | nil => rfl
  | cons c cs ih =>
    rw [String.utf8Len_cons, List.length_cons, ih fun x hx => h x (List.mem_cons_of_mem c hx),
      utf8Size_of_isHexDigit (h c List.mem_cons_self)]

/-- **`ValidateKey` accepts exactly 64 lowercase hex characters.** -/
theorem validateKey_eq_none_iff {key : String} : validateKey key = none ↔ IsKey key := by
  have hsize : (∀ c ∈ key.toList, isHexDigit c = true) → key.utf8ByteSize = key.length := by
    intro h
    rw [← String.ofList_toList (s := key), String.utf8ByteSize_ofList, utf8Len_of_isHexDigit h,
      String.ofList_toList, String.length_toList]
  constructor
  · intro h
    have hhex := (validateKey_none h).2
    refine ⟨?_, hhex⟩
    by_contra hne
    rw [validateKey, if_pos (by rwa [hsize hhex])] at h
    cases h
  · intro h
    have hidx : key.toList.findIdx? (fun c => !isHexDigit c) = none :=
      List.findIdx?_eq_none_iff.mpr fun c hc => by rw [h.2 c hc]; rfl
    rw [validateKey, if_neg (not_not.mpr ((hsize h.2).trans h.1)), hidx]

/-- A key has no slash. -/
theorem IsKey.slash_not_mem {key : String} (h : IsKey key) : '/' ∉ key.toList :=
  fun hm => absurd (h.2 _ hm) (by decide)

/-- A path that ends in a key does not end in a slash. -/
theorem IsKey.getLast? {key : String} (h : IsKey key) {s : List Char} :
    (s ++ '/' :: key.toList).getLast? ≠ some '/' := by
  have hne : key.toList ≠ [] := by
    intro hnil
    have hlen := h.1
    rw [← String.length_toList, hnil] at hlen
    cases hlen
  intro hlast
  rw [List.getLast?_append_of_ne_nil _ (List.cons_ne_nil _ _), List.getLast?_cons_of_ne_nil hne]
    at hlast
  exact h.slash_not_mem (List.mem_of_getLast? hlast)

/-- The segments that name a namespace are those that spell it. -/
theorem parseNamespace_eq_some {seg : List Char} {ns : Namespace} :
    parseNamespace seg = some ns ↔ Spells seg ns := by
  unfold parseNamespace Spells
  cases ns with
  | cas =>
    constructor
    · intro h
      by_contra hne
      rw [if_neg hne] at h
      split at h <;> cases h
    · exact fun h => if_pos h
  | ac =>
    constructor
    · intro h
      split at h
      · cases h
      · split at h
        · assumption
        · cases h
    · intro h
      rw [if_neg (by rw [h]; decide), if_pos h]

/-- Such a segment has no slash. -/
theorem Spells.slash_not_mem {seg : List Char} {ns : Namespace} (h : Spells seg ns) : '/' ∉ seg := by
  intro hm
  have hmem := List.mem_map_of_mem (f := Char.toLower) hm
  rw [show seg.map Char.toLower = ns.string.toList from h] at hmem
  cases ns <;> exact absurd hmem (by decide)

/-- A path that starts with a namespace does not start with a slash. -/
theorem Spells.not_slash {seg : List Char} {ns : Namespace} (h : Spells seg ns) (rest : List Char) :
    ¬['/'] <+: seg ++ rest := by
  cases seg with
  | nil => cases ns <;> exact absurd h (by decide)
  | cons c seg =>
    intro hp
    obtain rfl : '/' = c := (List.cons_prefix_cons.mp hp).1
    exact h.slash_not_mem List.mem_cons_self

/-- Nor with the mount point: the third letters differ. -/
theorem Spells.not_mount {seg : List Char} {ns : Namespace} (h : Spells seg ns) (rest : List Char) :
    ¬"cache/".toList <+: seg ++ '/' :: rest := by
  intro hp
  have hlow := hp.map Char.toLower
  rw [List.map_append, show seg.map Char.toLower = ns.string.toList from h] at hlow
  cases ns <;> simp [Namespace.string] at hlow

/-! ## The parser accepts the grammar -/

/-- The steps of `parsePath` before the cut. -/
def trimPath (p : List Char) : List Char :=
  trimPrefix "cache/".toList (trimSuffix '/' (trimPrefix ['/'] p))

/-- What trimming took away. -/
theorem eq_append_trimPath (p : List Char) : ∃ lead mount trail : Bool,
    p = (if lead then ['/'] else []) ++ (if mount then "cache/".toList else []) ++ trimPath p ++
      (if trail then ['/'] else []) := by
  obtain ⟨lead, hlead⟩ := eq_append_trimPrefix ['/'] p
  obtain ⟨trail, htrail⟩ := eq_trimSuffix_append '/' (trimPrefix ['/'] p)
  obtain ⟨mount, hmount⟩ :=
    eq_append_trimPrefix "cache/".toList (trimSuffix '/' (trimPrefix ['/'] p))
  refine ⟨lead, mount, trail, ?_⟩
  calc p = (if lead then ['/'] else []) ++ trimPrefix ['/'] p := hlead
    _ = (if lead then ['/'] else []) ++ (trimSuffix '/' (trimPrefix ['/'] p) ++
          (if trail then ['/'] else [])) := by rw [← htrail]
    _ = _ := by rw [List.append_assoc, List.append_assoc, trimPath, ← List.append_assoc _ (trimPrefix _ _),
          ← hmount]

/-- The leading slash is trimmed. -/
theorem trimPrefix_lead {ns : Namespace} {seg : List Char} (hseg : Spells seg ns) (rest : List Char)
    (lead mount : Bool) :
    trimPrefix ['/'] ((if lead then ['/'] else []) ++ ((if mount then "cache/".toList else []) ++
      (seg ++ '/' :: rest))) = (if mount then "cache/".toList else []) ++ (seg ++ '/' :: rest) := by
  cases lead with
  | true => exact trimPrefix_append ['/'] _
  | false =>
    refine trimPrefix_of_not ?_
    cases mount with
    | true => simp
    | false => exact hseg.not_slash _

/-- So is the mount point. -/
theorem trimPrefix_mount {ns : Namespace} {seg : List Char} (hseg : Spells seg ns)
    (rest : List Char) (mount : Bool) :
    trimPrefix "cache/".toList ((if mount then "cache/".toList else []) ++ (seg ++ '/' :: rest)) =
      seg ++ '/' :: rest := by
  cases mount with
  | true => exact trimPrefix_append _ _
  | false => exact trimPrefix_of_not (hseg.not_mount rest)

/-- Trimming leaves the namespace and the key. -/
theorem trimPath_eq {ns : Namespace} {seg : List Char} {key : String} (hseg : Spells seg ns)
    (hkey : IsKey key) (lead mount trail : Bool) :
    trimPath ((if lead then ['/'] else []) ++ ((if mount then "cache/".toList else []) ++
      (seg ++ '/' :: (key.toList ++ if trail then ['/'] else [])))) = seg ++ '/' :: key.toList := by
  have htrail : ∀ s : List Char, trimSuffix '/' (s ++ (seg ++ '/' :: (key.toList ++
      if trail then ['/'] else []))) = s ++ (seg ++ '/' :: key.toList) := by
    intro s
    cases trail with
    | true => simpa using trimSuffix_concat '/' (s ++ (seg ++ '/' :: key.toList))
    | false =>
      rw [if_neg Bool.false_ne_true, List.append_nil, ← List.append_assoc]
      exact trimSuffix_of_ne hkey.getLast?
  rw [trimPath, trimPrefix_lead hseg, htrail, trimPrefix_mount hseg]

/-- The cut and the two checks of `parsePath`. -/
theorem parsePath_eq_some {p : String} {ns : Namespace} {key : String} :
    parsePath p = some (ns, key) ↔
      ∃ seg, trimPath p.toList = seg ++ '/' :: key.toList ∧ Spells seg ns ∧ IsKey key := by
  constructor
  · intro h
    unfold parsePath at h
    dsimp only at h
    split at h
    · cases h
    · rename_i c keyPart hcut
      split at h
      · cases h
      · split at h
        · cases h
        · rename_i ns' hns
          split at h
          · rename_i hkey
            cases h
            have heq := eq_cut (s := trimPath p.toList) hcut
            rw [← String.toList_ofList (l := keyPart)] at heq
            exact ⟨_, heq, parseNamespace_eq_some.mp hns, validateKey_eq_none_iff.mp hkey⟩
          · cases h
  · rintro ⟨seg, htrim, hseg, hkey⟩
    obtain ⟨htake, hdrop⟩ := cut_append key.toList hseg.slash_not_mem
    unfold parsePath
    dsimp only
    rw [show trimPrefix "cache/".toList (trimSuffix '/' (trimPrefix ['/'] p.toList)) = _ from htrim,
      htake, hdrop]
    simp only [hkey.slash_not_mem, if_false, parseNamespace_eq_some.mpr hseg, String.ofList_toList,
      validateKey_eq_none_iff.mpr hkey, if_true]

/-- The characters of an optional part. -/
theorem toList_optional (present : Bool) (s : String) :
    (optional present s).toList = if present then s.toList else [] := by
  cases present <;> rfl

/-- **`parsePath` accepts exactly the grammar.** -/
theorem parsePath_iff {p : String} {ns : Namespace} {key : String} :
    parsePath p = some (ns, key) ↔ CachePath ns key p := by
  rw [parsePath_eq_some]
  constructor
  · rintro ⟨seg, htrim, hseg, hkey⟩
    obtain ⟨lead, mount, trail, hp⟩ := eq_append_trimPath p.toList
    have hpath := CachePath.mk lead mount trail (String.ofList seg) (by simpa using hseg) hkey
    convert hpath using 1
    rw [← String.toList_inj, hp, htrim]
    simp only [String.toList_append, toList_optional, String.toList_ofList, List.append_assoc]
    rfl
  · rintro ⟨lead, mount, trail, seg, hseg, hkey⟩
    refine ⟨seg.toList, ?_, hseg, hkey⟩
    rw [← trimPath_eq hseg hkey lead mount trail]
    simp only [String.toList_append, toList_optional, List.append_assoc]
    rfl

/-! ## URLs of peers -/

/-- The path of an absolute URL without escapes: what comes after scheme and authority, up to a query
or a fragment. -/
def urlPath (url : String) : String :=
  let rest := (url.toList.dropWhile (· ≠ ':')).drop "://".length
  String.ofList ((rest.dropWhile fun c => c ∉ ['/', '?', '#']).takeWhile fun c => c ∉ ['?', '#'])

/-- A URL of scheme and host only. -/
def HostOnly (url : String) : Prop :=
  ∃ scheme host : String, url = scheme ++ "://" ++ host ∧ ':' ∉ scheme.toList ∧
    ∀ c ∈ host.toList, c ∉ ['/', '?', '#']

/-- The path of `objectURL` at a peer that is reached by scheme and host. -/
theorem urlPath_objectURL {peer : Member} (hurl : HostOnly peer.url) (ns : Namespace) {key : String}
    (hkey : IsKey key) : urlPath (objectURL peer ns key) = objectURLPath ns key := by
  obtain ⟨scheme, host, heq, hscheme, hhost⟩ := hurl
  have hlist : (objectURL peer ns key).toList =
      scheme.toList ++ (':' :: '/' :: '/' :: (host.toList ++ (objectURLPath ns key).toList)) := by
    simp [objectURL, objectURLPath, heq, String.toList_append]
  have hrest : ((objectURL peer ns key).toList.dropWhile (· ≠ ':')).drop "://".length =
      host.toList ++ (objectURLPath ns key).toList := by
    rw [hlist, List.dropWhile_append_of_pos fun c hc => by
      simpa using fun h : c = ':' => hscheme (h ▸ hc)]
    rfl
  have hplain : ∀ x ∈ ['?', '#'], x ∉ (objectURLPath ns key).toList := by
    intro x hx hm
    have hcases : x = '/' ∨ x ∈ ns.string.toList ∨ x = '/' ∨ x ∈ key.toList := by
      simpa [objectURLPath, String.toList_append] using hm
    rcases List.mem_pair.mp hx with rfl | rfl <;> rcases hcases with h | h | h | h
    all_goals first
      | exact absurd h (by decide)
      | exact absurd (hkey.2 _ h) (by decide)
      | (cases ns <;> exact absurd h (by decide))
  unfold urlPath
  dsimp only
  rw [hrest, List.dropWhile_append_of_pos (by simpa using hhost)]
  have hstart : (objectURLPath ns key).toList.dropWhile (fun c => c ∉ ['/', '?', '#']) =
      (objectURLPath ns key).toList := by
    simp [objectURLPath, String.toList_append]
  have hend : ∀ c ∈ (objectURLPath ns key).toList, decide (c ∉ ['?', '#']) = true :=
    fun c hc => decide_eq_true fun h => hplain c h hc
  rw [hstart, List.takeWhile_eq_self_iff.mpr hend, String.ofList_toList]

/-! ## Object paths -/

/-- A file name that stays in its directory. -/
def PlainName (s : String) : Prop := s ≠ "" ∧ s ≠ "." ∧ s ≠ ".." ∧ '/' ∉ s.toList

/-- A hexadecimal text is a plain name. -/
theorem plainName_of_hex {s : String} (hne : s.toList ≠ [])
    (hhex : ∀ c ∈ s.toList, isHexDigit c = true) : PlainName s := by
  have hmem : ∀ c, isHexDigit c = false → c ∉ s.toList := fun c hc hm => by
    rw [hhex c hm] at hc
    cases hc
  refine ⟨?_, ?_, ?_, hmem '/' (by decide)⟩
  · rintro rfl
    exact hne rfl
  · rintro rfl
    exact hmem '.' (by decide) (by decide)
  · rintro rfl
    exact hmem '.' (by decide) (by decide)

/-- **The path of an object leads down from its namespace directory.** -/
theorem plainName_objectPath (ns : Namespace) {key : String} (h : IsKey key) :
    ∀ name ∈ objectPath ns key, PlainName name := by
  have hlen : key.toList.length = 64 := by
    rw [String.length_toList]
    exact h.1
  have hshard : ∀ i, i ≤ 1 → PlainName (shard i key) := by
    intro i hi
    refine plainName_of_hex ?_ ?_
    · intro hnil
      have hzero := congrArg List.length hnil
      rw [shard, String.toList_ofList, List.length_take, List.length_drop, hlen] at hzero
      simp at hzero
      omega
    · intro c hc
      rw [shard, String.toList_ofList] at hc
      exact h.2 c (List.mem_of_mem_drop (List.mem_of_mem_take hc))
  intro name hname
  simp only [objectPath, shardDir, List.cons_append, List.nil_append, List.mem_cons,
    List.not_mem_nil, or_false] at hname
  rcases hname with rfl | rfl | rfl | rfl
  · cases ns <;> exact ⟨by decide, by decide, by decide, by decide⟩
  · exact hshard 0 (by decide)
  · exact hshard 1 (by decide)
  · refine plainName_of_hex (fun hnil => ?_) h.2
    rw [hnil] at hlen
    cases hlen

/-- A path of the cache names a key. -/
theorem CachePath.isKey {ns : Namespace} {key p : String} (h : CachePath ns key p) : IsKey key := by
  cases h with
  | mk _ _ _ _ _ hkey => exact hkey

/-- **Cache paths.** `parsePath` accepts exactly the grammar; it reads back what `objectURL` builds for
a peer that is reached by scheme and host, and does not care for the mount point; and every accepted
object has a path of its own below its namespace directory. -/
theorem cache_paths :
    (∀ (p : String) (ns : Namespace) (key : String),
      parsePath p = some (ns, key) ↔ CachePath ns key p) ∧
    (∀ (peer : Member) (ns : Namespace) (key : String), HostOnly peer.url → IsKey key →
      parsePath (urlPath (objectURL peer ns key)) = some (ns, key)) ∧
    (∀ (lead mount trail : Bool) (seg key : String) (ns : Namespace), Spells seg.toList ns →
      IsKey key → parsePath (optional lead "/" ++ optional mount "cache/" ++ seg ++ "/" ++ key ++
        optional trail "/") = some (ns, key)) ∧
    ∀ (p p' : String) (ref ref' : Ref), parsePath p = some ref → parsePath p' = some ref' →
      [ref.1.string] <+: objectPath ref.1 ref.2 ∧
      (∀ name ∈ objectPath ref.1 ref.2, PlainName name) ∧
      (ref ≠ ref' → objectPath ref.1 ref.2 ≠ objectPath ref'.1 ref'.2) := by
  refine ⟨fun p ns key => parsePath_iff, ?_, ?_, ?_⟩
  · intro peer ns key hurl hkey
    rw [urlPath_objectURL hurl ns hkey]
    exact parsePath_objectURLPath ns (validateKey_eq_none_iff.mpr hkey)
  · intro lead mount trail seg key ns hseg hkey
    exact parsePath_iff.mpr (.mk lead mount trail seg hseg hkey)
  · intro p p' ref ref' h _
    refine ⟨⟨_, rfl⟩, plainName_objectPath ref.1 (parsePath_iff.mp h).isKey, fun hne heq => ?_⟩
    obtain ⟨hns, hkey⟩ := objectPath_injective heq
    exact hne (Prod.ext hns hkey)

/-- The URL of an object at a node. -/
theorem cache_paths_key01 : HostOnly "http://a:8080" ∧ IsKey key01 ∧
    parsePath (urlPath (objectURL ⟨"a", "http://a:8080", 0⟩ .cas key01)) = some (.cas, key01) := by
  have hurl : HostOnly "http://a:8080" := ⟨"http", "a:8080", by decide, by decide, by simp⟩
  have hkey : IsKey key01 := validateKey_eq_none_iff.mp (by decide)
  exact ⟨hurl, hkey, cache_paths.2.1 ⟨"a", "http://a:8080", 0⟩ .cas key01 hurl hkey⟩

/-! ## The router and the parser -/

/-- No letter is upper-case. -/
def LowerCase (p : String) : Prop := ∀ c ∈ p.toList, c.toLower = c

instance (p : String) : Decidable (LowerCase p) :=
  List.decidableBAll (fun c : Char => c.toLower = c) p.toList

/-- A cut at the first slash is unique. -/
theorem append_slash_inj {seg seg' rest rest' : List Char} (h : '/' ∉ seg) (h' : '/' ∉ seg')
    (heq : seg ++ '/' :: rest = seg' ++ '/' :: rest') : seg = seg' := by
  rw [← (cut_append rest h).1, heq, (cut_append rest' h').1]

/-- The router looks at the namespace as it is written. -/
theorem isCachePath_iff {ns : Namespace} {seg : String} (key : String)
    (hseg : Spells seg.toList ns) (lead mount trail : Bool) :
    isCachePath (optional lead "/" ++ optional mount "cache/" ++ seg ++ "/" ++ key ++
      optional trail "/") = true ↔ seg = "cas" ∨ seg = "ac" := by
  have htrim : trimPrefix "cache/".toList (trimPrefix ['/'] (optional lead "/" ++
      optional mount "cache/" ++ seg ++ "/" ++ key ++ optional trail "/").toList) =
      seg.toList ++ '/' :: (key.toList ++ if trail then ['/'] else []) := by
    rw [← trimPrefix_mount hseg _ mount, ← trimPrefix_lead hseg _ lead]
    simp only [String.toList_append, toList_optional, List.append_assoc]
    rfl
  have hslash : ∀ t : String, '/' ∉ t.toList →
      ¬seg.toList ++ '/' :: (key.toList ++ if trail then ['/'] else []) = t.toList := by
    intro t ht heq
    exact ht (heq ▸ by simp)
  have hpre : ∀ t : String, '/' ∉ t.toList → ((t ++ "/").toList <+:
      seg.toList ++ '/' :: (key.toList ++ if trail then ['/'] else []) ↔ seg = t) := by
    intro t ht
    constructor
    · rintro ⟨rest, heq⟩
      rw [String.toList_append, List.append_assoc] at heq
      exact (String.toList_inj.mp (append_slash_inj ht hseg.slash_not_mem heq)).symm
    · rintro rfl
      exact ⟨_, by rw [String.toList_append, List.append_assoc]; rfl⟩
  unfold isCachePath
  dsimp only
  rw [htrim]
  simp only [Bool.or_eq_true, decide_eq_true_eq, List.isPrefixOf_iff_prefix]
  rw [← hpre "cas" (by decide), ← hpre "ac" (by decide)]
  constructor
  · rintro (((h | h) | h) | h)
    · exact absurd h (hslash "cas" (by decide))
    · exact absurd h (hslash "ac" (by decide))
    · exact Or.inl h
    · exact Or.inr h
  · rintro (h | h)
    · exact Or.inl (Or.inr h)
    · exact Or.inr h

/-- The digits of a key are in lower case. -/
theorem toLower_of_isHexDigit {c : Char} (h : isHexDigit c = true) : c.toLower = c := by
  refine Char.toLower_eq_of_not_isUpper fun hup => ?_
  have hup' : 65 ≤ c.toNat ∧ c.toNat ≤ 90 := by
    simpa [Char.isUpper, UInt32.le_iff_toNat_le] using hup
  simp only [isHexDigit, Bool.or_eq_true, Bool.and_eq_true, decide_eq_true_eq] at h
  rcases h with ⟨-, h⟩ | ⟨h, -⟩
  · have hdigit : c.toNat ≤ 57 := h
    omega
  · have hletter : 97 ≤ c.toNat := h
    omega

/-- A cache path is in lower case when its namespace is. -/
theorem lowerCase_iff {ns : Namespace} {seg key : String} (hseg : Spells seg.toList ns)
    (hkey : IsKey key) (lead mount trail : Bool) :
    LowerCase (optional lead "/" ++ optional mount "cache/" ++ seg ++ "/" ++ key ++
      optional trail "/") ↔ seg = "cas" ∨ seg = "ac" := by
  constructor
  · intro h
    have hlow : ∀ c ∈ seg.toList, c.toLower = c := fun c hc => h c (by
      simp only [String.toList_append, List.mem_append]
      tauto)
    have hmap : seg.toList = ns.string.toList := by
      rw [← show seg.toList.map Char.toLower = ns.string.toList from hseg]
      exact ((List.map_congr_left hlow).trans (List.map_id _)).symm
    cases ns with
    | cas => exact Or.inl (String.toList_inj.mp hmap)
    | ac => exact Or.inr (String.toList_inj.mp hmap)
  · intro h c hc
    have hopt : ∀ (present : Bool) (s : String), LowerCase s → c ∈ (optional present s).toList →
        c.toLower = c := by
      intro present s hs hm
      cases present with
      | true => exact hs c hm
      | false => exact absurd hm List.not_mem_nil
    simp only [String.toList_append, List.mem_append] at hc
    rcases hc with ((((hc | hc) | hc) | hc) | hc) | hc
    · exact hopt lead "/" (by decide) hc
    · exact hopt mount "cache/" (by decide) hc
    · rcases h with rfl | rfl
      · exact (by decide : LowerCase "cas") c hc
      · exact (by decide : LowerCase "ac") c hc
    · exact (by decide : LowerCase "/") c hc
    · exact toLower_of_isHexDigit (hkey.2 c hc)
    · exact hopt trail "/" (by decide) hc

/-- **The router sends a cache path to the cache handler when it is written in lower case.** -/
theorem routeCache_eq_cache_iff (r : Request) (h : parsePath r.path ≠ none) :
    routeCache r = .cache ↔ LowerCase r.path := by
  obtain ⟨⟨ns, key⟩, href⟩ := Option.ne_none_iff_exists'.mp h
  have hpath := parsePath_iff.mp href
  unfold routeCache
  generalize r.path = p at hpath
  obtain ⟨lead, mount, trail, seg, hseg, hkey⟩ := hpath
  rw [lowerCase_iff hseg hkey, ← isCachePath_iff key hseg lead mount trail]
  split
  · rename_i hc
    exact iff_of_true rfl hc
  · rename_i hc
    exact iff_of_false (by decide) hc

/-- The path of a PUT in lower case. -/
theorem routeCache_eq_cache_iff_lower : parsePath ("/cas/" ++ key01) ≠ none ∧
    (routeCache ⟨.put, "/cas/" ++ key01, "", "", 0, ⟨[], none⟩⟩ = .cache ↔
      LowerCase ("/cas/" ++ key01)) :=
  have h : parsePath ("/cas/" ++ key01) ≠ none := by decide
  ⟨h, routeCache_eq_cache_iff ⟨.put, "/cas/" ++ key01, "", "", 0, ⟨[], none⟩⟩ h⟩

/-- A path with the namespace in upper case is one the handler would serve, and goes to the mux. -/
theorem routeCache_upper : parsePath ("/CAS/" ++ key01) = some (.cas, key01) ∧
    routeCache ⟨.put, "/CAS/" ++ key01, "", "", 0, ⟨[], none⟩⟩ = .mux := by
  decide +kernel

end KilnCache
