import KilnCache.Cluster.Ring

/-! # The configuration of a node

`config.Load` (`internal/config`): flags first, then the environment, then defaults; the peer list and
the sizes are parsed, a node without peers becomes a cluster of one, and everything is validated. What
`strconv`, `time` and `net/url` make of a text is a parameter (`Lib`). -/

open KilnCache.Ring (trimSlashes)

namespace KilnCache

/-! ## Values -/

/-- A `float64`. -/
inductive F64 where
  | nan
  | negInf
  | fin (q : ℚ)
  | posInf
  deriving DecidableEq

namespace F64

/-- `<`; nothing compares with NaN. -/
def lt : F64 → F64 → Bool
  | .fin a, .fin b => decide (a < b)
  | .negInf, .fin _ | .negInf, .posInf | .fin _, .posInf => true
  | _, _ => false

/-- `<=`. -/
def le (a b : F64) : Bool := lt a b || (decide (a = b) && decide (a ≠ .nan))

end F64

/-- The functions of the standard library that read values. -/
structure Lib where
  /-- `strconv.ParseFloat`. -/
  parseFloat : String → Except Err F64
  /-- `int64(v * float64(m))`. -/
  scale : F64 → Int → Int
  /-- `strconv.ParseInt` with base 10. -/
  parseInt : String → Except Err Int
  /-- `strconv.ParseInt` with the base of the literal, for flags. -/
  parseLiteral : String → Except Err Int
  /-- `strconv.Atoi`. -/
  atoi : String → Except Err Int
  /-- `strconv.ParseBool`. -/
  parseBool : String → Except Err Bool
  /-- `time.ParseDuration`, in nanoseconds. -/
  parseDuration : String → Except Err Int
  /-- `strings.ToLower`. -/
  toLower : String → String
  /-- `strings.ToUpper`. -/
  toUpper : String → String
  /-- `url.Parse`: scheme and host. -/
  parseURL : String → Except Err (String × String)

/-- `config.Config`; durations in nanoseconds. -/
structure Config where
  nodeName : String
  listenAddr : String
  advertiseURL : String
  dataDir : String
  maxBytes : Int
  highWater : F64
  lowWater : F64
  peers : List Peer
  replicaCount : Int
  readHeaderTimeout : Int
  writeTimeout : Int
  idleTimeout : Int
  shutdownTimeout : Int
  peerTimeout : Int
  repairWorkers : Int
  repairQueue : Int
  repairInterval : Int
  logLevel : String
  logFormat : String
  devMode : Bool
  maxObjectBytes : Int
  verifyReads : Bool
  deriving DecidableEq

/-- A second. -/
def second : Int := 1000000000

/-- `Defaults`. -/
def Config.defaults : Config where
  nodeName := "node-a"
  listenAddr := ":8080"
  advertiseURL := ""
  dataDir := "./data"
  maxBytes := 20 * 2 ^ 30
  highWater := .fin (9 / 10)
  lowWater := .fin (8 / 10)
  peers := []
  replicaCount := 2
  readHeaderTimeout := 10 * second
  writeTimeout := 0
  idleTimeout := 120 * second
  shutdownTimeout := 15 * second
  peerTimeout := 30 * second
  repairWorkers := 4
  repairQueue := 1024
  repairInterval := 60 * second
  logLevel := "info"
  logFormat := "json"
  devMode := false
  maxObjectBytes := 4 * 2 ^ 30
  verifyReads := true

/-- A text between quotes, as `%q` prints it. -/
def quote (s : String) : String := "\"" ++ s ++ "\""

/-! ## Flags -/

/-- The variables the flag set writes to, and the flags that were given (`fs.Visit`). -/
structure Flags where
  cfg : Config
  peersRaw : String
  maxBytesRaw : String
  maxObjectRaw : String
  set : List String

namespace Flags

/-- Before parsing. -/
def initial : Flags := ⟨Config.defaults, "", "", "", []⟩

/-- A flag whose value is parsed into a field of the configuration. -/
def parsed {α : Type} (st : Flags) (f : Config → α → Config) : Except Err α → Except Err Flags
  | .error err => .error err
  | .ok a => .ok { st with cfg := f st.cfg a }

/-- `Set` of the variable behind a flag; `none` for a flag that is not defined. -/
def assign (L : Lib) (st : Flags) (name value : String) : Option (Except Err Flags) :=
  match name with
  | "node-name" => some (st.parsed (fun c v => { c with nodeName := v }) (.ok value))
  | "listen" => some (st.parsed (fun c v => { c with listenAddr := v }) (.ok value))
  | "advertise-url" => some (st.parsed (fun c v => { c with advertiseURL := v }) (.ok value))
  | "data-dir" => some (st.parsed (fun c v => { c with dataDir := v }) (.ok value))
  | "max-bytes" => some (.ok { st with maxBytesRaw := value })
  | "max-object-bytes" => some (.ok { st with maxObjectRaw := value })
  | "high-water" => some (st.parsed (fun c v => { c with highWater := v }) (L.parseFloat value))
  | "low-water" => some (st.parsed (fun c v => { c with lowWater := v }) (L.parseFloat value))
  | "peers" => some (.ok { st with peersRaw := value })
  | "replica-count" =>
    some (st.parsed (fun c v => { c with replicaCount := v }) (L.parseLiteral value))
  | "read-header-timeout" =>
    some (st.parsed (fun c v => { c with readHeaderTimeout := v }) (L.parseDuration value))
  | "write-timeout" =>
    some (st.parsed (fun c v => { c with writeTimeout := v }) (L.parseDuration value))
  | "idle-timeout" => some (st.parsed (fun c v => { c with idleTimeout := v }) (L.parseDuration value))
  | "shutdown-timeout" =>
    some (st.parsed (fun c v => { c with shutdownTimeout := v }) (L.parseDuration value))
  | "peer-timeout" => some (st.parsed (fun c v => { c with peerTimeout := v }) (L.parseDuration value))
  | "repair-workers" =>
    some (st.parsed (fun c v => { c with repairWorkers := v }) (L.parseLiteral value))
  | "repair-queue" => some (st.parsed (fun c v => { c with repairQueue := v }) (L.parseLiteral value))
  | "repair-interval" =>
    some (st.parsed (fun c v => { c with repairInterval := v }) (L.parseDuration value))
  | "log-level" => some (st.parsed (fun c v => { c with logLevel := v }) (.ok value))
  | "log-format" => some (st.parsed (fun c v => { c with logFormat := v }) (.ok value))
  | "dev" => some (st.parsed (fun c v => { c with devMode := v }) (L.parseBool value))
  | "verify-reads" => some (st.parsed (fun c v => { c with verifyReads := v }) (L.parseBool value))
  | _ => none

/-- The flags that need no value. -/
def isBoolFlag (name : String) : Bool := name = "dev" || name = "verify-reads"

/-- Assign a flag and note that it was given. -/
def give (L : Lib) (st : Flags) (name value : String) : Except Err Flags :=
  match st.assign L name value with
  | none =>
    if name = "help" ∨ name = "h" then .error (.other "flag: help requested")
    else .error (.other ("flag provided but not defined: -" ++ name))
  | some (.error err) =>
    .error (.wrap ("invalid value " ++ quote value ++ " for flag -" ++ name) err)
  | some (.ok st') => .ok { st' with set := name :: st'.set }

/-- How an argument begins. -/
inductive Arg where
  /-- Not a flag, or the terminator: parsing stops. -/
  | stop
  /-- A dash with no name. -/
  | bad
  /-- A flag, with the value after an equals sign. -/
  | flag (name : String) (value : Option String)

/-- The name of a flag and its value, cut at the first equals sign after the first character. -/
def Arg.ofName : List Char → Arg
  | [] => .bad
  | c :: cs =>
    if c = '-' ∨ c = '=' then .bad
    else
      match cs.dropWhile (· ≠ '=') with
      | [] => .flag (String.ofList (c :: cs)) none
      | _ :: value =>
        .flag (String.ofList (c :: cs.takeWhile (· ≠ '='))) (some (String.ofList value))

/-- One or two dashes. -/
def Arg.ofString (s : String) : Arg :=
  match s.toList with
  | '-' :: '-' :: [] => .stop
  | '-' :: '-' :: name => .ofName name
  | '-' :: c :: name => .ofName (c :: name)
  | _ => .stop

/-- `FlagSet.Parse`. -/
def parse (L : Lib) (st : Flags) : List String → Except Err Flags
  | [] => .ok st
  | s :: args =>
    match Arg.ofString s with
    | .stop => .ok st
    | .bad => .error (.other ("bad flag syntax: " ++ s))
    | .flag name value =>
      if isBoolFlag name then
        match st.give L name (value.getD "true") with
        | .error err => .error err
        | .ok st' => parse L st' args
      else
        match value, args with
        | some v, args =>
          match st.give L name v with
          | .error err => .error err
          | .ok st' => parse L st' args
        | none, v :: args' =>
          match st.give L name v with
          | .error err => .error err
          | .ok st' => parse L st' args'
        | none, [] =>
          if (st.assign L name "").isNone then st.give L name ""
          else .error (.other ("flag needs an argument: -" ++ name))

end Flags

/-! ## Peers and sizes -/

/-- `strings.Split` at a character. -/
def splitOn (sep : Char) (s : String) : List String := (s.toList.splitOn sep).map String.ofList

/-- `strings.Cut` at a character. -/
def cutAt (sep : Char) (s : String) : Option (String × String) :=
  match s.toList.dropWhile (· ≠ sep) with
  | [] => none
  | _ :: rest => some (String.ofList (s.toList.takeWhile (· ≠ sep)), String.ofList rest)

/-- One entry of the peer list. -/
def parsePeer (part : String) : Except Err Peer :=
  match cutAt '=' part with
  | none => .error (.other ("peer " ++ quote part ++ " is not in name=url form"))
  | some (name, rawURL) =>
    if trimSpace name = "" ∨ trimSpace rawURL = "" then
      .error (.other ("peer " ++ quote part ++ " has an empty name or url"))
    else .ok ⟨trimSpace name, trimSlashes (trimSpace rawURL)⟩

/-- The loop of `ParsePeers`. -/
def parsePeerList : List String → Except Err (List Peer)
  | [] => .ok []
  | part :: parts =>
    if trimSpace part = "" then parsePeerList parts
    else
      match parsePeer (trimSpace part) with
      | .error err => .error err
      | .ok peer => (parsePeerList parts).map (peer :: ·)

/-- **`ParsePeers`.** -/
def parsePeers (s : String) : Except Err (List Peer) :=
  if trimSpace s = "" then .ok [] else parsePeerList (splitOn ',' (trimSpace s))

/-- The suffixes of a size, the longer ones first. -/
def sizeSuffixes : List (String × Int) :=
  [("KIB", 2 ^ 10), ("MIB", 2 ^ 20), ("GIB", 2 ^ 30), ("TIB", 2 ^ 40),
    ("KB", 1000), ("MB", 1000 ^ 2), ("GB", 1000 ^ 3), ("TB", 1000 ^ 4),
    ("K", 2 ^ 10), ("M", 2 ^ 20), ("G", 2 ^ 30), ("T", 2 ^ 40), ("B", 1)]

/-- **`ParseSize`.** -/
def parseSize (L : Lib) (text : String) : Except Err Int :=
  let s := trimSpace text
  let upper := L.toUpper s
  if s = "" then .error (.other "empty size")
  else
    match sizeSuffixes.find? fun suf => suf.1.toList.isSuffixOf upper.toList with
    | some (suf, mult) =>
      let num := trimSpace (String.ofList (upper.toList.take (upper.length - suf.length)))
      if num = "" then .error (.other ("size " ++ quote s ++ " has a suffix but no number"))
      else
        match L.parseFloat num with
        | .error err => .error (.wrap ("size " ++ quote s) err)
        | .ok v =>
          if v.lt (.fin 0) then .error (.other ("size " ++ quote s ++ " must not be negative"))
          else .ok (L.scale v mult)
    | none =>
      match L.parseInt upper with
      | .error err => .error (.wrap ("size " ++ quote s) err)
      | .ok v =>
        if v < 0 then .error (.other ("size " ++ quote s ++ " must not be negative")) else .ok v

/-- `defaultSelfURL`. -/
def defaultSelfURL (listen : String) : String :=
  match cutAt ':' listen with
  | none => "http://" ++ listen
  | some (host, port) => "http://" ++ (if host = "" then "127.0.0.1" else host) ++ ":" ++ port

/-! ## Validation -/

namespace Config

/-- The checks of `Validate` on one peer. -/
def checkPeer (L : Lib) (seen : List String) (p : Peer) : Option Err :=
  if trimSpace p.name = "" then some (.other "peer name must not be empty")
  else if p.name ∈ seen then some (.other ("duplicate peer name " ++ quote p.name))
  else
    match L.parseURL p.url with
    | .error err =>
      some (.wrap ("peer " ++ quote p.name ++ " has invalid url " ++ quote p.url) err)
    | .ok (scheme, host) =>
      if scheme ≠ "http" ∧ scheme ≠ "https" then
        some (.other ("peer " ++ quote p.name ++ " url " ++ quote p.url ++
          " must be http or https"))
      else if host = "" then
        some (.other ("peer " ++ quote p.name ++ " url " ++ quote p.url ++ " has no host"))
      else none

/-- The loop of `Validate` over the peers. -/
def checkPeers (L : Lib) : List Peer → List String → Option Err
  | [], _ => none
  | p :: ps, seen =>
    match checkPeer L seen p with
    | some err => some err
    | none => checkPeers L ps (p.name :: seen)

/-- `PeerNames`. -/
def peerNames (peers : List Peer) : List String := (peers.map Peer.name).insertionSort (· ≤ ·)

/-- **`Validate`.** -/
def validate (L : Lib) (c : Config) : Option Err :=
  if trimSpace c.nodeName = "" then some (.other "node name must not be empty")
  else if trimSpace c.listenAddr = "" then some (.other "listen address must not be empty")
  else if trimSpace c.dataDir = "" then some (.other "data dir must not be empty")
  else if c.maxBytes ≤ 0 then
    some (.other ("max bytes must be positive, got " ++ toString c.maxBytes))
  else if c.maxObjectBytes ≤ 0 then
    some (.other ("max object bytes must be positive, got " ++ toString c.maxObjectBytes))
  else if c.highWater.le (.fin 0) ∨ F64.lt (.fin 1) c.highWater then
    some (.other "high water must be in (0,1]")
  else if c.lowWater.le (.fin 0) ∨ c.highWater.le c.lowWater then
    some (.other "low water must be in (0,high)")
  else if c.replicaCount < 1 then
    some (.other ("replica count must be >= 1, got " ++ toString c.replicaCount))
  else if c.peers = [] then some (.other "peer list must not be empty")
  else if (c.peers.length : Int) < c.replicaCount then
    some (.other ("replica count " ++ toString c.replicaCount ++ " exceeds cluster size " ++
      toString c.peers.length))
  else if c.repairWorkers < 0 then
    some (.other ("repair workers must be >= 0, got " ++ toString c.repairWorkers))
  else if c.repairQueue < 1 then
    some (.other ("repair queue must be >= 1, got " ++ toString c.repairQueue))
  else
    match checkPeers L c.peers [] with
    | some err => some err
    | none =>
      if c.peers.any fun p => p.name = c.nodeName then none
      else some (.wrap "node name is not a member of the peer list"
        (.other (quote c.nodeName ++ " not in [" ++ " ".intercalate (peerNames c.peers) ++ "]")))

end Config

/-! ## Load -/

namespace Flags

/-- A value from the environment, applied only where the flag was not given. -/
def fallback {α : Type} (env : String → Option String) (flag key : String)
    (parse : String → Except Err α) (f : Config → α → Config) (st : Flags) : Except Err Flags :=
  if flag ∈ st.set then .ok st
  else
    match env ("KILNCACHE_" ++ key) with
    | none => .ok st
    | some v =>
      match parse v with
      | .error err => .error (.wrap ("KILNCACHE_" ++ key) err)
      | .ok a => .ok { st with cfg := f st.cfg a }

/-- A text from the environment for a flag that is empty. -/
def rawFallback (env : String → Option String) (key raw : String) : String :=
  if raw = "" then (env ("KILNCACHE_" ++ key)).getD raw else raw

/-- The environment fallbacks of `Load`. -/
def applyEnv (L : Lib) (env : String → Option String) (st : Flags) : Except Err Flags := do
  let st ← st.fallback env "node-name" "NODE_NAME" .ok fun c v => { c with nodeName := v }
  let st ← st.fallback env "listen" "LISTEN" .ok fun c v => { c with listenAddr := v }
  let st ← st.fallback env "advertise-url" "ADVERTISE_URL" .ok
    fun c v => { c with advertiseURL := v }
  let st ← st.fallback env "data-dir" "DATA_DIR" .ok fun c v => { c with dataDir := v }
  let st := { st with maxBytesRaw := rawFallback env "MAX_BYTES" st.maxBytesRaw }
  let st := { st with maxObjectRaw := rawFallback env "MAX_OBJECT_BYTES" st.maxObjectRaw }
  let st ← st.fallback env "high-water" "HIGH_WATER" L.parseFloat
    fun c v => { c with highWater := v }
  let st ← st.fallback env "low-water" "LOW_WATER" L.parseFloat fun c v => { c with lowWater := v }
  let st := { st with peersRaw := rawFallback env "PEERS" st.peersRaw }
  let st ← st.fallback env "replica-count" "REPLICA_COUNT" L.atoi
    fun c v => { c with replicaCount := v }
  let st ← st.fallback env "peer-timeout" "PEER_TIMEOUT" L.parseDuration
    fun c v => { c with peerTimeout := v }
  let st ← st.fallback env "repair-workers" "REPAIR_WORKERS" L.atoi
    fun c v => { c with repairWorkers := v }
  let st ← st.fallback env "repair-interval" "REPAIR_INTERVAL" L.parseDuration
    fun c v => { c with repairInterval := v }
  let st ← st.fallback env "log-level" "LOG_LEVEL" .ok fun c v => { c with logLevel := v }
  let st ← st.fallback env "log-format" "LOG_FORMAT" .ok fun c v => { c with logFormat := v }
  let st ← st.fallback env "dev" "DEV" L.parseBool fun c v => { c with devMode := v }
  st.fallback env "verify-reads" "VERIFY_READS" L.parseBool fun c v => { c with verifyReads := v }

/-- The size a raw text denotes, or the default. -/
def size (L : Lib) (name raw : String) (dflt : Int) : Except Err Int :=
  if raw = "" then .ok dflt
  else
    match parseSize L raw with
    | .error err => .error (.wrap name err)
    | .ok n => .ok n

/-- The peers a raw text denotes. -/
def peerList (raw : String) : Except Err (List Peer) :=
  if raw = "" then .ok []
  else
    match parsePeers raw with
    | .error err => .error (.wrap "peers" err)
    | .ok peers => .ok peers

/-- The part of `Load` that parses sizes and peers and completes the configuration. -/
def resolve (L : Lib) (st : Flags) : Except Err Config := do
  let maxBytes ← size L "max-bytes" st.maxBytesRaw st.cfg.maxBytes
  let maxObjectBytes ← size L "max-object-bytes" st.maxObjectRaw st.cfg.maxObjectBytes
  let peers ← peerList st.peersRaw
  let cfg := { st.cfg with
    maxBytes, maxObjectBytes
    logLevel := L.toLower st.cfg.logLevel
    logFormat := L.toLower st.cfg.logFormat }
  if peers = [] then
    -- a single-node cache: the membership is this node alone
    .ok { cfg with
      peers := [⟨cfg.nodeName, defaultSelfURL cfg.listenAddr⟩]
      replicaCount := if 1 < cfg.replicaCount then 1 else cfg.replicaCount }
  else .ok { cfg with peers }

end Flags

/-- **`Load`.** -/
def Config.load (L : Lib) (args : List String) (env : String → Option String) : Except Err Config := do
  let st ← Flags.initial.parse L args
  let st ← st.applyEnv L env
  let cfg ← st.resolve L
  match cfg.validate L with
  | some err => .error err
  | none => .ok cfg

end KilnCache
