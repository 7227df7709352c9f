import FeatureProbeServer.Base
import Mathlib.Algebra.Group.Int.Defs
import Mathlib.Algebra.Group.Nat.Defs
import Mathlib.Tactic.Common

/-!
# Reading the configuration (`ServerConfig::try_parse`)

A raw configuration answers `get_string` and `get_int`, `none` when the setting is absent or cannot be
read so. `parse` is `Url::parse`, with its error as it is displayed. Numbers go through `as` casts,
which keep them modulo a power of two: nothing checks that they fit.
-/

namespace FeatureProbeServer

structure RawConfig where
  getString : String → Option String
  getInt : String → Option Int64

/-- Settings given as texts and as numbers. -/
def RawConfig.ofSettings (strings : List (String × String)) (ints : List (String × Int64)) : RawConfig :=
  ⟨fun setting => strings.lookup setting, fun setting => ints.lookup setting⟩

/-! ### Numbers -/

/-- `n as u64` -/
def asU64 (n : Int64) : UInt64 := n.toUInt64

/-- `n as u16` -/
def asU16 (n : Int64) : UInt16 := n.toUInt64.toUInt16

theorem toNat_asU64 (n : Int64) : ((asU64 n).toNat : Int) = n.toInt % 2 ^ 64 := by
  show (n.toBitVec.toNat : Int) = n.toBitVec.toInt % 2 ^ 64
  have hlt := n.toBitVec.isLt
  rw [BitVec.toInt_eq_toNat_cond]
  split <;> omega

theorem toNat_asU16 (n : Int64) : ((asU16 n).toNat : Int) = n.toInt % 2 ^ 16 := by
  have h := toNat_asU64 n
  unfold asU64 at h
  unfold asU16
  rw [UInt64.toNat_toUInt16]
  omega

theorem asU64_exact (n : Int64) : ((asU64 n).toNat : Int) = n.toInt ↔ 0 ≤ n.toInt := by
  have hlt := n.toInt_lt
  rw [toNat_asU64]
  omega

theorem asU16_exact (n : Int64) : ((asU16 n).toNat : Int) = n.toInt ↔ 0 ≤ n.toInt ∧ n.toInt < 2 ^ 16 := by
  rw [toNat_asU16]
  omega

def Duration.fromSecs (secs : UInt64) : Duration := ⟨secs, 0⟩

/-! ### Intervals -/

/-- `tokio::time::interval` -/
structure Tokio where
  /-- The periods with which `interval` does not panic. -/
  creates : Duration → Bool
  /-- The periods with which `Interval::tick` does not panic. -/
  ticks : Duration → Bool

namespace Tokio

/-- Only the period of zero is refused. A tick adds the period to the time, which panics beyond what
the clock can hold: `limit` is the seconds it has left. -/
structure Clocked (T : Tokio) (limit : Nat) : Prop where
  creates_iff : ∀ d, T.creates d = true ↔ d ≠ ⟨0, 0⟩
  ticks_iff : ∀ secs, T.ticks (.fromSecs secs) = true ↔ secs.toNat ≤ limit

/-- Intervals on a clock of `i64` seconds that stands at zero. -/
def atZero : Tokio := ⟨fun d => d != ⟨0, 0⟩, fun d => decide (d.secs.toNat < 2 ^ 63)⟩

theorem atZero_clocked : atZero.Clocked (2 ^ 63 - 1) where
  creates_iff d := by simp [atZero]
  ticks_iff secs := by
    rw [atZero, decide_eq_true_iff]
    show secs.toNat < 2 ^ 63 ↔ _
    omega

end Tokio

/-- `none` is the panic of `tokio::time::interval`. -/
def interval (T : Tokio) (period : Duration) : Option Duration :=
  if T.creates period then some period else none

theorem fromSecs_eq_zero {secs : UInt64} : Duration.fromSecs secs = ⟨0, 0⟩ ↔ secs.toNat = 0 := by
  rw [Duration.fromSecs, Duration.mk.injEq, ← UInt64.toNat_inj]
  simp

/-! ### Settings -/

namespace RawConfig
variable (parse : String → Except String Url) (config : RawConfig)

def parseUrl (envName url : String) : Except FPServerError Url :=
  (parse url).mapError fun e => .configError s!"INVALID {envName}: {e}"

def someUrl (envName url : String) : Except FPServerError (Option Url) := do
  return some (← parseUrl parse envName url)

def requiredUrl (setting envName : String) : Except FPServerError Url :=
  match config.getString setting with
  | none => .error (.configError s!"NOT SET {envName}")
  | some url => parseUrl parse envName url

def togglesUrl : Except FPServerError Url := config.requiredUrl parse "toggles_url" "FP_TOGGLES_URL"

def eventsUrl : Except FPServerError Url := config.requiredUrl parse "events_url" "FP_EVENTS_URL"

def clientSdkKey : Option String := config.getString "client_sdk_key"

def serverSdkKey : Option String := config.getString "server_sdk_key"

def keysUrl : Except FPServerError (Option Url) :=
  match config.getString "keys_url" with
  | some url => someUrl parse "FP_KEYS_URL" url
  | none =>
    if config.clientSdkKey.isNone then .error (.configError "NOT SET FP_CLIENT_SDK_KEY")
    else if config.serverSdkKey.isNone then .error (.configError "NOT SET FP_SERVER_SDK_KEY")
    else .ok none

def analysisUrl : Except FPServerError (Option Url) :=
  match config.getString "analysis_url" with
  | some url => someUrl parse "FP_ANALYSIS_URL" url
  | none => .ok none

def refreshInterval : Except FPServerError Duration :=
  match config.getInt "refresh_seconds" with
  | none => .error (.configError "NOT SET FP_REFRESH_SECONDS")
  | some interval => .ok (.fromSecs (asU64 interval))

def port (setting : String) (default : UInt16) : UInt16 :=
  match config.getInt setting with
  | none => default
  | some port => asU16 port

def serverPort : UInt16 := config.port "server_port" 9000

def realtimePort : UInt16 := config.port "realtime_port" 9100

def realtimePath : String := (config.getString "realtime_path").getD "/server/realtime"

end RawConfig

def ServerConfig.tryParse (parse : String → Except String Url) (config : RawConfig) :
    Except FPServerError ServerConfig := do
  let togglesUrl ← config.togglesUrl parse
  let eventsUrl ← config.eventsUrl parse
  let keysUrl ← config.keysUrl parse
  let analysisUrl ← config.analysisUrl parse
  let refreshInterval ← config.refreshInterval
  return {
    togglesUrl, eventsUrl, keysUrl, analysisUrl, refreshInterval
    serverSdkKey := config.serverSdkKey
    clientSdkKey := config.clientSdkKey
    serverPort := config.serverPort
    realtimePort := config.realtimePort
    realtimePath := config.realtimePath }

/-! ### What is accepted -/

theorem bind_eq_ok {ε α β : Type} {x : Except ε α} {f : α → Except ε β} {b : β} :
    (x >>= f) = .ok b ↔ ∃ a, x = .ok a ∧ f a = .ok b := by
  cases x <;> simp [bind, Except.bind]

/-- Every error is a `ConfigError`. -/
def OnlyConfigErrors {α : Type} (x : Except FPServerError α) : Prop :=
  ∀ e, x = .error e → ∃ message, e = .configError message

theorem OnlyConfigErrors.bind {α β : Type} {x : Except FPServerError α} {f : α → Except FPServerError β}
    (hx : OnlyConfigErrors x) (hf : ∀ a, OnlyConfigErrors (f a)) : OnlyConfigErrors (x >>= f) := by
  intro e he
  cases x with
  | error e' => cases he; exact hx e rfl
  | ok a => exact hf a e he

theorem OnlyConfigErrors.ok {α : Type} (a : α) : OnlyConfigErrors (.ok a) := nofun

theorem OnlyConfigErrors.configError {α : Type} (message : String) :
    OnlyConfigErrors (.error (.configError message) : Except FPServerError α) :=
  fun _ h => ⟨message, by cases h; rfl⟩

namespace RawConfig
variable {parse : String → Except String Url} {config : RawConfig}

/-- The setting is the text of `url`. -/
def Reads (parse : String → Except String Url) (config : RawConfig) (setting : String) (url : Url) : Prop :=
  ∃ text, config.getString setting = some text ∧ parse text = .ok url

theorem parseUrl_ok_iff {envName text : String} {url : Url} :
    parseUrl parse envName text = .ok url ↔ parse text = .ok url := by
  unfold parseUrl
  cases parse text <;> simp [Except.mapError]

theorem onlyConfigErrors_parseUrl (envName text : String) :
    OnlyConfigErrors (parseUrl parse envName text) := by
  unfold parseUrl
  cases parse text with
  | ok url => exact .ok url
  | error e => exact .configError _

theorem someUrl_ok_iff {envName text : String} {o : Option Url} :
    someUrl parse envName text = .ok o ↔ ∃ url, o = some url ∧ parse text = .ok url := by
  rw [someUrl, bind_eq_ok]
  constructor
  · rintro ⟨url, hurl, ho⟩
    exact ⟨url, (Except.ok.inj ho).symm, parseUrl_ok_iff.mp hurl⟩
  · rintro ⟨url, rfl, hurl⟩
    exact ⟨url, parseUrl_ok_iff.mpr hurl, rfl⟩

theorem onlyConfigErrors_someUrl (envName text : String) : OnlyConfigErrors (someUrl parse envName text) :=
  (onlyConfigErrors_parseUrl envName text).bind fun url => .ok (some url)

theorem requiredUrl_ok_iff {setting envName : String} {url : Url} :
    config.requiredUrl parse setting envName = .ok url ↔ config.Reads parse setting url := by
  unfold requiredUrl Reads
  cases config.getString setting with
  | none => simp
  | some text => simp [parseUrl_ok_iff]

theorem onlyConfigErrors_requiredUrl (setting envName : String) :
    OnlyConfigErrors (config.requiredUrl parse setting envName) := by
  unfold requiredUrl
  cases config.getString setting with
  | none => exact .configError _
  | some text => exact onlyConfigErrors_parseUrl envName text

theorem keysUrl_ok_iff {o : Option Url} : config.keysUrl parse = .ok o ↔
    (∃ url, o = some url ∧ config.Reads parse "keys_url" url) ∨
      o = none ∧ config.getString "keys_url" = none ∧ config.clientSdkKey.isSome = true ∧
        config.serverSdkKey.isSome = true := by
  unfold keysUrl Reads
  cases config.getString "keys_url" with
  | none => cases config.clientSdkKey <;> cases config.serverSdkKey <;> simp [eq_comm]
  | some text => simp [someUrl_ok_iff]

theorem onlyConfigErrors_keysUrl : OnlyConfigErrors (config.keysUrl parse) := by
  unfold keysUrl
  cases config.getString "keys_url" with
  | none =>
    dsimp only
    split
    · exact .configError _
    · split
      · exact .configError _
      · exact .ok none
  | some text => exact onlyConfigErrors_someUrl _ text

theorem analysisUrl_ok_iff {o : Option Url} : config.analysisUrl parse = .ok o ↔
    (∃ url, o = some url ∧ config.Reads parse "analysis_url" url) ∨
      o = none ∧ config.getString "analysis_url" = none := by
  unfold analysisUrl Reads
  cases config.getString "analysis_url" with
  | none => simp [eq_comm]
  | some text => simp [someUrl_ok_iff]

theorem onlyConfigErrors_analysisUrl : OnlyConfigErrors (config.analysisUrl parse) := by
  unfold analysisUrl
  cases config.getString "analysis_url" with
  | none => exact .ok none
  | some text => exact onlyConfigErrors_someUrl _ text

theorem refreshInterval_ok_iff {d : Duration} : config.refreshInterval = .ok d ↔
    ∃ n, config.getInt "refresh_seconds" = some n ∧ d = .fromSecs (asU64 n) := by
  unfold refreshInterval
  cases config.getInt "refresh_seconds" with
  | none => simp
  | some n => simp [eq_comm]

theorem onlyConfigErrors_refreshInterval : OnlyConfigErrors config.refreshInterval := by
  unfold refreshInterval
  cases config.getInt "refresh_seconds" with
  | none => exact .configError _
  | some n => exact .ok _

end RawConfig
namespace ServerConfig
variable {parse : String → Except String Url} {config : RawConfig} {cfg : ServerConfig}

/-- `cfg` is what the raw configuration says, with the defaults for what it leaves out. -/
structure Parsed (parse : String → Except String Url) (config : RawConfig) (cfg : ServerConfig) : Prop where
  togglesUrl : config.Reads parse "toggles_url" cfg.togglesUrl
  eventsUrl : config.Reads parse "events_url" cfg.eventsUrl
  keysUrl : (∃ url, cfg.keysUrl = some url ∧ config.Reads parse "keys_url" url) ∨
    cfg.keysUrl = none ∧ config.getString "keys_url" = none ∧ config.clientSdkKey.isSome = true ∧
      config.serverSdkKey.isSome = true
  analysisUrl : (∃ url, cfg.analysisUrl = some url ∧ config.Reads parse "analysis_url" url) ∨
    cfg.analysisUrl = none ∧ config.getString "analysis_url" = none
  refreshInterval : ∃ n, config.getInt "refresh_seconds" = some n ∧
    cfg.refreshInterval = .fromSecs (asU64 n)
  serverSdkKey : cfg.serverSdkKey = config.serverSdkKey
  clientSdkKey : cfg.clientSdkKey = config.clientSdkKey
  serverPort : cfg.serverPort = config.serverPort
  realtimePort : cfg.realtimePort = config.realtimePort
  realtimePath : cfg.realtimePath = config.realtimePath

theorem tryParse_ok_iff : tryParse parse config = .ok cfg ↔ Parsed parse config cfg := by
  simp only [tryParse, bind_eq_ok]
  constructor
  · rintro ⟨toggles, ht, events, he, keys, hk, analysis, ha, refresh, hr, hcfg⟩
    cases hcfg
    exact ⟨RawConfig.requiredUrl_ok_iff.mp ht, RawConfig.requiredUrl_ok_iff.mp he,
      RawConfig.keysUrl_ok_iff.mp hk, RawConfig.analysisUrl_ok_iff.mp ha,
      RawConfig.refreshInterval_ok_iff.mp hr, rfl, rfl, rfl, rfl, rfl⟩
  · intro h
    refine ⟨_, RawConfig.requiredUrl_ok_iff.mpr h.togglesUrl, _, RawConfig.requiredUrl_ok_iff.mpr h.eventsUrl,
      _, RawConfig.keysUrl_ok_iff.mpr h.keysUrl, _, RawConfig.analysisUrl_ok_iff.mpr h.analysisUrl,
      _, RawConfig.refreshInterval_ok_iff.mpr h.refreshInterval, ?_⟩
    obtain ⟨-, -, -, -, -, hs, hc, hp, hrp, hpath⟩ := h
    rw [← hs, ← hc, ← hp, ← hrp, ← hpath]
    rfl

/-- A configuration that is refused is refused with a `ConfigError`. -/
theorem onlyConfigErrors_tryParse : OnlyConfigErrors (tryParse parse config) :=
  (RawConfig.onlyConfigErrors_requiredUrl _ _).bind fun _ =>
    (RawConfig.onlyConfigErrors_requiredUrl _ _).bind fun _ =>
      RawConfig.onlyConfigErrors_keysUrl.bind fun _ =>
        RawConfig.onlyConfigErrors_analysisUrl.bind fun _ =>
          RawConfig.onlyConfigErrors_refreshInterval.bind fun _ => .ok _

/-! ### The numbers of an accepted configuration -/

/-- All settings but the numbers are in order, and `refresh_seconds` is given. -/
structure Complete (parse : String → Except String Url) (config : RawConfig) : Prop where
  togglesUrl : ∃ url, config.Reads parse "toggles_url" url
  eventsUrl : ∃ url, config.Reads parse "events_url" url
  keysUrl : (∃ url, config.Reads parse "keys_url" url) ∨ config.getString "keys_url" = none ∧
    config.clientSdkKey.isSome = true ∧ config.serverSdkKey.isSome = true
  analysisUrl : (∃ url, config.Reads parse "analysis_url" url) ∨ config.getString "analysis_url" = none
  refreshSeconds : ∃ n, config.getInt "refresh_seconds" = some n

/-- The numbers that are given fit their types, and the refresh interval is positive and within
`limit`. -/
structure InRange (limit : Nat) (config : RawConfig) : Prop where
  refreshSeconds : ∀ n, config.getInt "refresh_seconds" = some n → 0 < n.toInt ∧ n.toInt ≤ limit
  serverPort : ∀ n, config.getInt "server_port" = some n → 0 ≤ n.toInt ∧ n.toInt < 2 ^ 16
  realtimePort : ∀ n, config.getInt "realtime_port" = some n → 0 ≤ n.toInt ∧ n.toInt < 2 ^ 16

/-- A number is given that its type does not have. -/
def Unrepresentable (config : RawConfig) : Prop :=
  (∃ n, config.getInt "refresh_seconds" = some n ∧ n.toInt < 0) ∨
    ∃ setting ∈ ["server_port", "realtime_port"], ∃ n, config.getInt setting = some n ∧
      (n.toInt < 0 ∨ 2 ^ 16 ≤ n.toInt)

/-- Numbers are taken as they are, the interval made of them panics neither when it is created nor at
a tick, and what does not fit is refused. -/
structure NumbersKept (T : Tokio) (parse : String → Except String Url) (config : RawConfig) : Prop where
  refreshInterval : ∀ cfg, tryParse parse config = .ok cfg → ∃ n, config.getInt "refresh_seconds" = some n ∧
    (cfg.refreshInterval.secs.toNat : Int) = n.toInt ∧ cfg.refreshInterval.nanos = 0 ∧
      cfg.refreshInterval ≠ ⟨0, 0⟩
  serverPort : ∀ cfg, tryParse parse config = .ok cfg → ∀ n, config.getInt "server_port" = some n →
    (cfg.serverPort.toNat : Int) = n.toInt
  realtimePort : ∀ cfg, tryParse parse config = .ok cfg → ∀ n, config.getInt "realtime_port" = some n →
    (cfg.realtimePort.toNat : Int) = n.toInt
  interval : ∀ cfg, tryParse parse config = .ok cfg →
    T.creates cfg.refreshInterval = true ∧ T.ticks cfg.refreshInterval = true
  reported : Unrepresentable config → ∃ message, tryParse parse config = .error (.configError message)

theorem Complete.accepted (h : Complete parse config) : ∃ cfg, tryParse parse config = .ok cfg := by
  obtain ⟨⟨toggles, ht⟩, ⟨events, he⟩, hk, ha, ⟨n, hn⟩⟩ := h
  have keys : ∃ o, config.keysUrl parse = .ok o := by
    rcases hk with ⟨url, hk⟩ | hk
    · exact ⟨some url, RawConfig.keysUrl_ok_iff.mpr (.inl ⟨url, rfl, hk⟩)⟩
    · exact ⟨none, RawConfig.keysUrl_ok_iff.mpr (.inr ⟨rfl, hk⟩)⟩
  have analysis : ∃ o, config.analysisUrl parse = .ok o := by
    rcases ha with ⟨url, ha⟩ | ha
    · exact ⟨some url, RawConfig.analysisUrl_ok_iff.mpr (.inl ⟨url, rfl, ha⟩)⟩
    · exact ⟨none, RawConfig.analysisUrl_ok_iff.mpr (.inr ⟨rfl, ha⟩)⟩
  obtain ⟨keys, hk⟩ := keys
  obtain ⟨analysis, ha⟩ := analysis
  refine ⟨⟨toggles, events, keys, analysis, .fromSecs (asU64 n), config.serverSdkKey, config.clientSdkKey,
    config.serverPort, config.realtimePort, config.realtimePath⟩, tryParse_ok_iff.mpr ?_⟩
  exact ⟨ht, he, RawConfig.keysUrl_ok_iff.mp hk, RawConfig.analysisUrl_ok_iff.mp ha, ⟨n, hn, rfl⟩,
    rfl, rfl, rfl, rfl, rfl⟩

theorem Parsed.complete (h : Parsed parse config cfg) : Complete parse config where
  togglesUrl := ⟨_, h.togglesUrl⟩
  eventsUrl := ⟨_, h.eventsUrl⟩
  keysUrl := h.keysUrl.imp (Exists.imp fun _ => And.right) And.right
  analysisUrl := h.analysisUrl.imp (Exists.imp fun _ => And.right) And.right
  refreshSeconds := h.refreshInterval.imp fun _ => And.left

/-! An accepted number is the configured one exactly when it fits. -/

theorem Parsed.refresh_exact (h : Parsed parse config cfg) {n : Int64}
    (hn : config.getInt "refresh_seconds" = some n) :
    (cfg.refreshInterval.secs.toNat : Int) = n.toInt ∧ cfg.refreshInterval ≠ ⟨0, 0⟩ ↔ 0 < n.toInt := by
  obtain ⟨n', hn', hsecs⟩ := h.refreshInterval
  obtain rfl : n = n' := Option.some.inj (hn.symm.trans hn')
  rw [hsecs, Ne, fromSecs_eq_zero]
  change ((asU64 n).toNat : Int) = n.toInt ∧ ¬ (asU64 n).toNat = 0 ↔ _
  have hexact := asU64_exact n
  omega

theorem Parsed.serverPort_exact (h : Parsed parse config cfg) {n : Int64}
    (hn : config.getInt "server_port" = some n) :
    (cfg.serverPort.toNat : Int) = n.toInt ↔ 0 ≤ n.toInt ∧ n.toInt < 2 ^ 16 := by
  rw [h.serverPort, RawConfig.serverPort, RawConfig.port, hn]
  exact asU16_exact n

theorem Parsed.realtimePort_exact (h : Parsed parse config cfg) {n : Int64}
    (hn : config.getInt "realtime_port" = some n) :
    (cfg.realtimePort.toNat : Int) = n.toInt ↔ 0 ≤ n.toInt ∧ n.toInt < 2 ^ 16 := by
  rw [h.realtimePort, RawConfig.realtimePort, RawConfig.port, hn]
  exact asU16_exact n

section
variable {T : Tokio} {limit : Nat}

theorem Parsed.ticks_iff (hT : T.Clocked limit) (h : Parsed parse config cfg) {n : Int64}
    (hn : config.getInt "refresh_seconds" = some n) (hpos : 0 < n.toInt) :
    T.ticks cfg.refreshInterval = true ↔ n.toInt ≤ limit := by
  obtain ⟨n', hn', hsecs⟩ := h.refreshInterval
  obtain rfl : n = n' := Option.some.inj (hn.symm.trans hn')
  rw [hsecs, hT.ticks_iff]
  have hexact := (asU64_exact n).mpr (Int.le_of_lt hpos)
  omega

theorem NumbersKept.inRange (hT : T.Clocked limit) (h : NumbersKept T parse config)
    (hc : Complete parse config) : InRange limit config := by
  obtain ⟨cfg, hcfg⟩ := hc.accepted
  have hp := tryParse_ok_iff.mp hcfg
  refine ⟨fun n hn => ?_, fun n hn => ?_, fun n hn => ?_⟩
  · obtain ⟨n', hn', hexact, -, hzero⟩ := h.refreshInterval cfg hcfg
    obtain rfl : n = n' := Option.some.inj (hn.symm.trans hn')
    have hpos := (hp.refresh_exact hn).mp ⟨hexact, hzero⟩
    exact ⟨hpos, (hp.ticks_iff hT hn hpos).mp (h.interval cfg hcfg).2⟩
  · exact (hp.serverPort_exact hn).mp (h.serverPort cfg hcfg n hn)
  · exact (hp.realtimePort_exact hn).mp (h.realtimePort cfg hcfg n hn)

theorem InRange.representable (h : InRange limit config) : ¬ Unrepresentable config := by
  rintro (⟨n, hn, hneg⟩ | ⟨setting, hs, n, hn, hout⟩)
  · have hpos := (h.refreshSeconds n hn).1
    omega
  · simp only [List.mem_cons, List.not_mem_nil, or_false] at hs
    rcases hs with rfl | rfl
    · have hport := h.serverPort n hn
      omega
    · have hport := h.realtimePort n hn
      omega

/-- The numbers are kept if and only if they fit, or another setting is refused before them. -/
theorem numbersKept_iff (hT : T.Clocked limit) (parse : String → Except String Url) (config : RawConfig) :
    NumbersKept T parse config ↔ (Complete parse config → InRange limit config) := by
  refine ⟨NumbersKept.inRange hT, fun h => ?_⟩
  have hrange : ∀ cfg, tryParse parse config = .ok cfg → Parsed parse config cfg ∧ InRange limit config :=
    fun cfg hcfg => ⟨tryParse_ok_iff.mp hcfg, h (tryParse_ok_iff.mp hcfg).complete⟩
  refine ⟨fun cfg hcfg => ?_, fun cfg hcfg n hn => ?_, fun cfg hcfg n hn => ?_, fun cfg hcfg => ?_,
    fun hu => ?_⟩
  · obtain ⟨hp, hr⟩ := hrange cfg hcfg
    obtain ⟨n, hn, hsecs⟩ := hp.refreshInterval
    obtain ⟨hexact, hzero⟩ := (hp.refresh_exact hn).mpr (hr.refreshSeconds n hn).1
    exact ⟨n, hn, hexact, by rw [hsecs]; rfl, hzero⟩
  · obtain ⟨hp, hr⟩ := hrange cfg hcfg
    exact (hp.serverPort_exact hn).mpr (hr.serverPort n hn)
  · obtain ⟨hp, hr⟩ := hrange cfg hcfg
    exact (hp.realtimePort_exact hn).mpr (hr.realtimePort n hn)
  · obtain ⟨hp, hr⟩ := hrange cfg hcfg
    obtain ⟨n, hn, -⟩ := hp.refreshInterval
    obtain ⟨hpos, hle⟩ := hr.refreshSeconds n hn
    obtain ⟨-, hzero⟩ := (hp.refresh_exact hn).mpr hpos
    exact ⟨(hT.creates_iff _).mpr hzero, (hp.ticks_iff hT hn hpos).mpr hle⟩
  · cases hcfg : tryParse parse config with
    | error e =>
      obtain ⟨message, rfl⟩ := onlyConfigErrors_tryParse e hcfg
      exact ⟨message, rfl⟩
    | ok cfg => exact absurd hu (hrange cfg hcfg).2.representable

/-- The smallest refresh interval and the largest port. -/
theorem numbersKept_smallest : NumbersKept Tokio.atZero (fun text => .ok ⟨text⟩) (.ofSettings
    [("toggles_url", "http://127.0.0.1:9009/api/server-sdk/toggles"),
      ("events_url", "http://127.0.0.1:9009/api/events"), ("client_sdk_key", "client-sdk-key1"),
      ("server_sdk_key", "server-sdk-key1")]
    [("refresh_seconds", 1), ("server_port", 65535)]) := by
  refine (numbersKept_iff Tokio.atZero_clocked _ _).mpr fun _ =>
    ⟨fun n hn => ?_, fun n hn => ?_, fun n hn => ?_⟩
  · cases hn
    decide
  · cases hn
    decide
  · cases hn

/-- A refresh interval of zero and a port beyond 65535 are accepted, the port as 4464. -/
theorem not_numbersKept : ¬ NumbersKept Tokio.atZero (fun text => .ok ⟨text⟩) (.ofSettings
    [("toggles_url", "http://127.0.0.1:9009/api/server-sdk/toggles"),
      ("events_url", "http://127.0.0.1:9009/api/events"), ("client_sdk_key", "client-sdk-key1"),
      ("server_sdk_key", "server-sdk-key1")]
    [("refresh_seconds", 0), ("server_port", 70000)]) := by
  intro h
  have hport := h.serverPort _ rfl 70000 rfl
  revert hport
  decide

end

end ServerConfig
end FeatureProbeServer
