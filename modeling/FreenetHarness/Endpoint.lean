import Mathlib.Data.List.TakeWhile
import FreenetHarness.Lib.Number
import FreenetHarness.Lib.Run

/-! # Which node a run may connect to

`endpointPort` reads the port a URL names; `targetOf` is the one routing decision, from
the flags as given. `endpointPort_iff` says which texts name a port, and `target_guarded`
which flags the routing accepts and what it makes of them. -/
namespace FreenetHarness.Endpoint
open FreenetHarness.Lib.Text FreenetHarness.Lib.Number FreenetHarness.Lib.Run

/-- The owner's nodes: network and local mode. -/
def protectedPorts : List UInt16 := [7509, 7609]

/-- Why a target is refused. -/
inductive Refusal where
  | notUrl (ws : Str)
  | noPort (ws : Str)
  | notPort (ws port : Str)
  | protectedPort (ws : Str) (port : UInt16)
  | ownNode
  | noEndpoint
  deriving DecidableEq

/-- The message; `quote` is how a text prints under `{:?}`. -/
def Refusal.text (quote : Str → String) : Refusal → String
  | .notUrl ws => s!"{quote ws} is not a ws:// or wss:// URL"
  | .noPort ws => s!"{quote ws} names no port — give one explicitly"
  | .notPort ws port => s!"{quote ws}: port {quote port} is not a port"
  | .protectedPort ws port =>
    s!"refusing {String.ofList ws}: port {port.toNat} is the owner's node. This tool never " ++
      "connects to 7509 or 7609 — run your own node on its own port."
  | .ownNode =>
    "this subcommand starts its OWN node: --ws and --local would be ignored, so they are refused"
  | .noEndpoint =>
    "no endpoint: pass --ws ws://127.0.0.1:<port>/v1/contract/command?encodingProtocol=native " ++
      "for YOUR node (never 7509/7609). There is no default."

/-! ## The port of a URL -/

/-- What ends the authority of a URL. -/
def isDelimiter (c : Char) : Bool := c == '/' || c == '?' || c == '#'

/-- The host and the port, behind the last `@` of the authority. -/
def hostPort (authority : Str) : Str :=
  match rsplitOnce '@' authority with
  | some (_, h) => h
  | none => authority

/-- What follows the port's colon. The colons inside brackets are the address's. -/
def portOf (hostport : Str) : Option Str :=
  match stripPrefix ['['] hostport with
  | some v6 => (splitOnce ']' v6).bind fun p => stripPrefix [':'] p.2
  | none => (rsplitOnce ':' hostport).map Prod.snd

/-- The port a `ws://` or `wss://` URL names, explicitly. -/
def endpointPort (ws : Str) : Except Refusal UInt16 :=
  match (stripPrefix "ws://".toList ws).or (stripPrefix "wss://".toList ws) with
  | none => .error (.notUrl ws)
  | some rest =>
    match portOf (hostPort (rest.takeWhile fun c => !isDelimiter c)) with
    | none => .error (.noPort ws)
    | some p =>
      if p = [] then .error (.noPort ws)
      else match fromStrRadix 10 65535 p with
        | .ok n => .ok (UInt16.ofNat n)
        | .error _ => .error (.notPort ws p)

/-- Is this a target this tool may connect to? -/
def checkEndpoint (ws : Str) (guarded : List UInt16) : Except Refusal Unit := do
  let port ← endpointPort ws
  if port ∈ guarded then throw (.protectedPort ws port)

/-! ## The routing -/

inductive Cmd where
  | roundtrip
  | delegateProbe
  | latency
  | validateCost
  | batchBlock
  | bag
  | register
  | pack
  | putShape
  | upgradeCycle
  /-- The node to read from; the writes go to `--ws`. -/
  | group (readWs : Str)
  /-- Spawns its own node. -/
  | kill9
  | hedge
  | set
  | parity
  | xnode
  | watch
  deriving DecidableEq

/-- The flags that routing reads. -/
structure Cli where
  ws : Option Str
  /-- `--local`: a label, not a route. -/
  localMode : Bool
  cmd : Cmd
  deriving DecidableEq

/-- Where the node-facing subcommands connect. -/
def resolveTarget (ws : Option Str) (localMode startsOwnNode : Bool) :
    Except Refusal (Option Str) :=
  if startsOwnNode then
    if ws.isSome || localMode then .error .ownNode else .ok none
  else match ws with
    | none => .error .noEndpoint
    | some ws => do
      checkEndpoint ws protectedPorts
      return some ws

/-- `resolveTarget` over the flags, plus every other endpoint flag. -/
def targetOf (cli : Cli) : Except Refusal (Option Str) := do
  let target ← resolveTarget cli.ws cli.localMode (cli.cmd = .kill9)
  match cli.cmd with
  | .group readWs => checkEndpoint readWs protectedPorts
  | _ => pure ()
  return target

/-! ## A URL from its parts -/

inductive Scheme where
  | ws
  | wss
  deriving DecidableEq

def Scheme.text : Scheme → Str
  | .ws => "ws://".toList
  | .wss => "wss://".toList

/-- Any text that does not end the authority. -/
structure Userinfo where
  text : Str
  clear : ∀ c ∈ text, isDelimiter c = false

inductive Host where
  /-- An IPv6 literal, without its brackets. -/
  | v6 (text : Str) (clear : ∀ c ∈ text, c ≠ ']' ∧ c ≠ '@' ∧ isDelimiter c = false)
  | name (text : Str) (clear : ∀ c ∈ text, c ≠ '@' ∧ isDelimiter c = false)
      (start : text.head? ≠ some '[')

def Host.text : Host → Str
  | .v6 t _ => '[' :: t ++ [']']
  | .name t _ _ => t

/-- No colon in it would pass for the port's. -/
def Host.Plain : Host → Prop
  | .v6 .. => True
  | .name t _ _ => ':' ∉ t

/-- What is written after the colon: a decimal numeral, or nothing. A plus may stand before it. -/
structure Port where
  plus : Bool := false
  digits : Str
  isDigit : ∀ c ∈ digits, c.isDigit = true

def Port.text (p : Port) : Str := (if p.plus then ['+'] else []) ++ p.digits

def Port.value (p : Port) : Nat := Nat.ofDigitChars 10 p.digits 0

structure Tail where
  text : Str
  start : ∀ c ∈ text.head?, isDelimiter c = true

structure Url where
  scheme : Scheme
  userinfo : Option Userinfo
  host : Host
  port : Option Port
  plain : port = none → host.Plain
  tail : Tail

/-- The host, and the port behind its colon. -/
def Url.hostPort (u : Url) : Str :=
  u.host.text ++ match u.port with
    | some p => ':' :: p.text
    | none => []

def Url.authority (u : Url) : Str :=
  match u.userinfo with
  | some i => i.text ++ '@' :: u.hostPort
  | none => u.hostPort

def Url.render (u : Url) : Str := u.scheme.text ++ u.authority ++ u.tail.text

/-- The URL names the port of this number. -/
def Url.Names (u : Url) (n : Nat) : Prop := ∃ p ∈ u.port, p.digits ≠ [] ∧ p.value = n

theorem isDigit_clear {c : Char} (h : c.isDigit = true) :
    c ≠ ':' ∧ c ≠ '@' ∧ isDelimiter c = false := by
  refine ⟨?_, ?_, ?_⟩
  · exact isDigit_ne h rfl
  · exact isDigit_ne h rfl
  · by_contra hd
    simp only [isDelimiter, Bool.not_eq_false, Bool.or_eq_true, beq_iff_eq] at hd
    rcases hd with (rfl | rfl) | rfl <;> exact absurd h (by decide)

theorem Port.text_clear (p : Port) :
    ∀ c ∈ p.text, c ≠ ':' ∧ c ≠ '@' ∧ isDelimiter c = false := by
  intro c hc
  rcases List.mem_append.mp hc with hc | hc
  · obtain ⟨-, rfl⟩ : p.plus = true ∧ c = '+' := by simpa using hc
    decide
  · exact isDigit_clear (p.isDigit c hc)

theorem Host.text_clear (h : Host) : ∀ c ∈ h.text, c ≠ '@' ∧ isDelimiter c = false := by
  intro c hc
  cases h with
  | v6 t clear =>
    simp only [Host.text, List.cons_append, List.mem_cons, List.mem_append, List.not_mem_nil,
      or_false] at hc
    rcases hc with rfl | hc | rfl
    · decide
    · exact (clear c hc).2
    · decide
  | name t clear => exact clear c hc

theorem Url.hostPort_clear (u : Url) : ∀ c ∈ u.hostPort, c ≠ '@' ∧ isDelimiter c = false := by
  intro c hc
  unfold Url.hostPort at hc
  rcases List.mem_append.mp hc with hc | hc
  · exact u.host.text_clear c hc
  · cases hp : u.port with
    | none =>
      rw [hp] at hc
      cases hc
    | some p =>
      rw [hp] at hc
      rcases List.mem_cons.mp hc with rfl | hc
      · decide
      · exact (p.text_clear c hc).2

theorem Url.authority_clear (u : Url) : ∀ c ∈ u.authority, isDelimiter c = false := by
  intro c hc
  unfold Url.authority at hc
  split at hc
  · rename_i i _
    rcases List.mem_append.mp hc with hc | hc
    · exact i.clear c hc
    · rcases List.mem_cons.mp hc with rfl | hc
      · decide
      · exact (u.hostPort_clear c hc).2
  · exact (u.hostPort_clear c hc).2

/-- The authority of a URL is what stands before its tail. -/
theorem takeWhile_authority (u : Url) :
    (u.authority ++ u.tail.text).takeWhile (fun c => !isDelimiter c) = u.authority := by
  rw [List.takeWhile_append_of_pos fun c hc => by simp [u.authority_clear c hc]]
  have htail : u.tail.text.takeWhile (fun c => !isDelimiter c) = [] := by
    cases ht : u.tail.text with
    | nil => rfl
    | cons c cs =>
      have hc := u.tail.start c (by simp [ht])
      rw [List.takeWhile_cons_of_neg (by simp [hc])]
  rw [htail, List.append_nil]

/-- Userinfo, whatever it holds, ends at the last `@`. -/
theorem hostPort_authority (u : Url) : hostPort u.authority = u.hostPort := by
  have hat : '@' ∉ u.hostPort := fun h => (u.hostPort_clear '@' h).1 rfl
  unfold hostPort Url.authority
  cases u.userinfo with
  | some i => rw [rsplitOnce_append _ hat]
  | none => rw [rsplitOnce_of_notMem hat]

theorem stripPrefix_bracket {s : Str} (h : s.head? ≠ some '[') : stripPrefix ['['] s = none := by
  cases s with
  | nil => rfl
  | cons c cs =>
    have : ¬ '[' = c := fun hc => h (by rw [hc]; rfl)
    simp [stripPrefix, this]

theorem portOf_hostPort (u : Url) : portOf u.hostPort = u.port.map Port.text := by
  unfold portOf Url.hostPort
  have hplain := u.plain
  cases hhost : u.host with
  | v6 t clear =>
    have hin : ']' ∉ t := fun h => (clear _ h).1 rfl
    have hstrip (rest : Str) :
        stripPrefix ['['] ((Host.v6 t clear).text ++ rest) = some (t ++ ']' :: rest) := by
      simp [Host.text, stripPrefix]
    rw [hstrip]
    dsimp only
    rw [splitOnce_append hin]
    cases u.port with
    | none => rfl
    | some p => simp [stripPrefix]
  | name t clear start =>
    have hstrip : ∀ rest : Str, rest.head? ≠ some '[' →
        stripPrefix ['['] ((Host.name t clear start).text ++ rest) = none := by
      intro rest hrest
      refine stripPrefix_bracket ?_
      cases t with
      | nil => exact hrest
      | cons c cs => exact start
    cases hp : u.port with
    | none =>
      have hcolon : ':' ∉ t := by simpa [hhost, Host.Plain] using hplain hp
      rw [hstrip _ (by simp)]
      simp [Host.text, rsplitOnce_of_notMem hcolon]
    | some p =>
      have hcolon : ':' ∉ p.text := fun h => (p.text_clear _ h).1 rfl
      rw [hstrip _ (by simp)]
      simp [Host.text, rsplitOnce_append t hcolon]

theorem stripPrefix_scheme (s : Scheme) (rest : Str) :
    (stripPrefix "ws://".toList (s.text ++ rest)).or (stripPrefix "wss://".toList (s.text ++ rest)) =
      some rest := by
  cases s with
  | ws => rfl
  | wss => rfl

theorem Port.read (p : Port) :
    fromStrRadix 10 65535 p.text =
      if p.text = [] then .error .empty
      else if p.digits = [] then .error .invalidDigit
      else if p.value ≤ 65535 then .ok p.value else .error .posOverflow := by
  have hread : p.digits ≠ [] → fromStrRadix 10 65535 p.digits =
      if p.value ≤ 65535 then .ok p.value else .error .posOverflow :=
    fun h => fromStrRadix_numeral h p.isDigit
  unfold Port.text
  cases p.plus with
  | false =>
    by_cases hd : p.digits = []
    · simp [hd, fromStrRadix]
    · simp [hd, hread hd]
  | true =>
    by_cases hd : p.digits = []
    · simp [hd, fromStrRadix]
    · simp [hd, hread hd, fromStrRadix_plus _ p.isDigit]

/-- What is read from a URL put together from its parts. -/
theorem endpointPort_render (u : Url) :
    endpointPort u.render =
      match u.port with
      | none => .error (.noPort u.render)
      | some p =>
        if p.text = [] then .error (.noPort u.render)
        else if p.digits ≠ [] ∧ p.value ≤ 65535 then .ok (UInt16.ofNat p.value)
        else .error (.notPort u.render p.text) := by
  have hport : portOf (hostPort ((u.authority ++ u.tail.text).takeWhile fun c => !isDelimiter c)) =
      u.port.map Port.text := by
    rw [takeWhile_authority, hostPort_authority, portOf_hostPort]
  unfold endpointPort
  rw [show u.render = u.scheme.text ++ (u.authority ++ u.tail.text) from List.append_assoc ..,
    stripPrefix_scheme]
  dsimp only
  rw [hport]
  cases u.port with
  | none => rfl
  | some p =>
    by_cases hp : p.text = []
    · simp [hp]
    · by_cases hd : p.digits = []
      · simp [hp, Port.read, hd]
      · by_cases hv : p.value ≤ 65535
        · simp [hp, Port.read, hd, hv]
        · simp [hp, Port.read, hd, hv]

/-- A port is read from a URL exactly when the URL names it. -/
theorem endpointPort_eq_ok (u : Url) (port : UInt16) :
    endpointPort u.render = .ok port ↔ u.Names port.toNat := by
  have hlt := port.toNat_lt
  rw [endpointPort_render, Url.Names]
  cases u.port with
  | none => simp
  | some p =>
    simp only [Option.mem_def, Option.some.injEq, exists_eq_left']
    by_cases hp : p.digits ≠ [] ∧ p.value ≤ 65535
    · have htext : p.text ≠ [] := by simp [Port.text, hp.1]
      have hsize : p.value < UInt16.size := Nat.lt_succ_of_le hp.2
      rw [if_neg htext, if_pos hp, Except.ok.injEq, ← UInt16.toNat_inj,
        UInt16.toNat_ofNat_of_lt' hsize]
      exact (and_iff_right hp.1).symm
    · have hnot : ¬(p.digits ≠ [] ∧ p.value = port.toNat) := fun h => hp ⟨h.1, by omega⟩
      rw [if_neg hp]
      split <;> simp [hnot]

/-! ## Every text that names a port -/

theorem scheme_of_stripPrefix {ws rest : Str}
    (h : (stripPrefix "ws://".toList ws).or (stripPrefix "wss://".toList ws) = some rest) :
    ∃ s : Scheme, ws = s.text ++ rest := by
  rcases Option.or_eq_some_iff.mp h with h | ⟨-, h⟩
  · exact ⟨.ws, eq_of_stripPrefix h⟩
  · exact ⟨.wss, eq_of_stripPrefix h⟩

/-- What stands before the last `@`, if there is one, and behind it. -/
theorem hostPort_cases {authority : Str} (h : ∀ c ∈ authority, isDelimiter c = false) :
    ∃ i : Option Userinfo, authority = (match i with
      | some i => i.text ++ '@' :: hostPort authority
      | none => hostPort authority) ∧
      ∀ c ∈ hostPort authority, c ≠ '@' ∧ isDelimiter c = false := by
  unfold hostPort
  cases hs : rsplitOnce '@' authority with
  | none =>
    have hat := notMem_of_rsplitOnce hs
    exact ⟨none, rfl, fun c hc => ⟨fun he => hat (he ▸ hc), h c hc⟩⟩
  | some x =>
    obtain ⟨i, b⟩ := x
    obtain ⟨heq, hat⟩ := eq_of_rsplitOnce hs
    refine ⟨some ⟨i, fun c hc => h c (by simp [heq, hc])⟩, heq, fun c hc => ?_⟩
    exact ⟨fun he => hat (he ▸ hc), h c (by simp [heq, hc])⟩

/-- The host, where a port is found behind it. -/
theorem portOf_eq_some {hp p : Str} (hclear : ∀ c ∈ hp, c ≠ '@' ∧ isDelimiter c = false)
    (h : portOf hp = some p) : ∃ host : Host, hp = host.text ++ ':' :: p := by
  unfold portOf at h
  cases hs : stripPrefix ['['] hp with
  | some v6 =>
    rw [hs] at h
    obtain ⟨⟨t, q⟩, hsplit, hq⟩ := Option.bind_eq_some_iff.mp h
    obtain ⟨heq, hin⟩ := eq_of_splitOnce hsplit
    have hall : hp = '[' :: t ++ ']' :: ':' :: p := by
      rw [eq_of_stripPrefix hs, heq, show q = [':'] ++ p from eq_of_stripPrefix hq]
      rfl
    have hmem : ∀ c ∈ t, c ∈ hp := fun c hc => by simp [hall, hc]
    exact ⟨.v6 t fun c hc => ⟨fun he => hin (he ▸ hc), hclear c (hmem c hc)⟩,
      by simp [hall, Host.text]⟩
  | none =>
    rw [hs] at h
    obtain ⟨⟨t, q⟩, hsplit, hq⟩ := Option.map_eq_some_iff.mp h
    cases hq
    obtain ⟨heq, -⟩ := eq_of_rsplitOnce hsplit
    refine ⟨.name t (fun c hc => hclear c (by simp [heq, hc])) fun hstart => ?_, heq⟩
    obtain ⟨ts, rfl⟩ : ∃ ts, t = '[' :: ts := by
      cases t with
      | nil => cases hstart
      | cons c ts =>
        cases hstart
        exact ⟨ts, rfl⟩
    simp [heq, stripPrefix] at hs

/-- A text from which a port is read is a URL that names it. -/
theorem exists_url {ws : Str} {port : UInt16} (h : endpointPort ws = .ok port) :
    ∃ u : Url, u.render = ws ∧ u.Names port.toNat := by
  have hread := h
  unfold endpointPort at hread
  split at hread
  · cases hread
  · rename_i rest hrest
    obtain ⟨s, hs⟩ := scheme_of_stripPrefix hrest
    have hinside : ∀ c ∈ rest.takeWhile fun c => !isDelimiter c, isDelimiter c = false :=
      fun c hc => by simpa using List.mem_takeWhile_imp hc
    obtain ⟨i, hauthority, hclear⟩ := hostPort_cases hinside
    split at hread
    · cases hread
    · rename_i p hport
      obtain ⟨host, hhost⟩ := portOf_eq_some hclear hport
      split at hread
      · cases hread
      · split at hread
        · rename_i n hn
          obtain ⟨plus, ds, rfl, hd, hne, hv, hmax⟩ := numeral_of_fromStrRadix hn
          have htail : ∀ c ∈ (rest.dropWhile fun c => !isDelimiter c).head?,
              isDelimiter c = true := by
            intro c hc
            have := List.head?_dropWhile_not (fun c => !isDelimiter c) rest
            rw [Option.mem_def.mp hc] at this
            simpa using this
          let u : Url :=
            { scheme := s, userinfo := i, host, port := some ⟨plus, ds, hd⟩
              plain := fun h => (nomatch h), tail := ⟨_, htail⟩ }
          have hrender : u.render = ws := by
            have hhp : u.hostPort = _ := hhost.symm
            have hauth : u.authority = rest.takeWhile fun c => !isDelimiter c := by
              rw [hauthority, ← hhp]
              rfl
            calc u.render = s.text ++ u.authority ++ rest.dropWhile (fun c => !isDelimiter c) := rfl
              _ = s.text ++ rest := by rw [hauth, List.append_assoc, List.takeWhile_append_dropWhile]
              _ = ws := hs.symm
          exact ⟨u, hrender, (endpointPort_eq_ok u port).mp (hrender ▸ h)⟩
        · cases hread

/-- The text is a URL that names the port. -/
def NamesPort (ws : Str) (port : UInt16) : Prop := ∃ u : Url, u.render = ws ∧ u.Names port.toNat

/-- **What port a text names.** -/
theorem endpointPort_iff (ws : Str) (port : UInt16) :
    endpointPort ws = .ok port ↔ NamesPort ws port := by
  constructor
  · exact exists_url
  · rintro ⟨u, rfl, hu⟩
    exact (endpointPort_eq_ok u port).mpr hu

/-! ## What is accepted -/

/-- The text names a port, and none of the owner's. -/
def Allowed (ws : Str) : Prop :=
  (∃ port, NamesPort ws port) ∧ ∀ port ∈ protectedPorts, ¬ NamesPort ws port

theorem checkEndpoint_iff (ws : Str) : checkEndpoint ws protectedPorts = .ok () ↔ Allowed ws := by
  unfold checkEndpoint Allowed
  simp only [← endpointPort_iff]
  cases endpointPort ws with
  | error e => simp [bind, Except.bind]
  | ok port =>
    by_cases hm : port ∈ protectedPorts
    · simp [hm, bind, Except.bind, throw, throwThe, MonadExceptOf.throw]
    · simp [hm, bind, Except.bind, pure, Except.pure]
      exact fun p hp he => hm (he ▸ hp)

theorem checked_bind {α : Type} {ws : Str} {x : Except Refusal α} {r : α} :
    (checkEndpoint ws protectedPorts >>= fun _ => x) = .ok r ↔ Allowed ws ∧ x = .ok r := by
  rw [bind_eq_ok, ← checkEndpoint_iff]
  constructor
  · rintro ⟨⟨⟩, h⟩
    exact h
  · intro h
    exact ⟨(), h⟩

theorem resolveTarget_iff {ws target : Option Str} {localMode startsOwnNode : Bool} :
    resolveTarget ws localMode startsOwnNode = .ok target ↔
      target = ws ∧ if startsOwnNode = true then ws = none ∧ localMode = false
        else ∃ w ∈ ws, Allowed w := by
  unfold resolveTarget
  cases startsOwnNode with
  | true => cases ws <;> cases localMode <;> simp [eq_comm]
  | false =>
    cases ws with
    | none => simp
    | some w =>
      have hw := @checked_bind _ w (pure (some w)) target
      simp only [Bool.false_eq_true, if_false]
      rw [hw]
      simp [pure, Except.pure, and_comm, eq_comm]

/-- What an accepted route says about the flags. -/
theorem targetOf_iff {cli : Cli} {route : Option Str} :
    targetOf cli = .ok route ↔
      route = cli.ws ∧
        (if cli.cmd = .kill9 then cli.ws = none ∧ cli.localMode = false
          else ∃ ws ∈ cli.ws, Allowed ws) ∧
        ∀ readWs, cli.cmd = .group readWs → Allowed readWs := by
  have hgroup : ∀ target : Option Str, (do
      match cli.cmd with
      | .group readWs => checkEndpoint readWs protectedPorts
      | _ => pure ()
      return target : Except Refusal (Option Str)) = .ok route ↔
        target = route ∧ ∀ readWs, cli.cmd = .group readWs → Allowed readWs := by
    intro target
    cases cli.cmd with
    | group readWs =>
      refine checked_bind.trans ?_
      simp [pure, Except.pure, and_comm]
    | _ => simp [pure, Except.pure]
  unfold targetOf
  rw [bind_eq_ok]
  simp only [hgroup, resolveTarget_iff, decide_eq_true_eq]
  constructor
  · rintro ⟨target, ⟨rfl, h⟩, rfl, hread⟩
    exact ⟨rfl, h, hread⟩
  · rintro ⟨rfl, h, hread⟩
    exact ⟨_, ⟨rfl, h⟩, rfl, hread⟩

/-- `--local` plays no part where no node is started. -/
theorem targetOf_localMode {cli : Cli} (h : cli.cmd ≠ .kill9) (b : Bool) :
    targetOf { cli with localMode := b } = targetOf cli := by
  unfold targetOf resolveTarget
  simp [h]

/-- **The guard.** A port is read from a text exactly when it is a URL that names it; and then
every flag that is an endpoint must name a port, and none of the owner's. A route that is
accepted is the `--ws` as given, and `--local` changes it for no subcommand but the one that
starts its own node. -/
theorem target_guarded :
    (∀ (ws : Str) (port : UInt16), endpointPort ws = .ok port ↔ NamesPort ws port) ∧
      (∀ (u : Url) (port : UInt16), endpointPort u.render = .ok port ↔ u.Names port.toNat) ∧
      (∀ (cli : Cli) (route : Option Str), targetOf cli = .ok route ↔
        route = cli.ws ∧
          (if cli.cmd = .kill9 then cli.ws = none ∧ cli.localMode = false
            else ∃ ws ∈ cli.ws, Allowed ws) ∧
          ∀ readWs, cli.cmd = .group readWs → Allowed readWs) ∧
      ∀ (cli : Cli) (b : Bool), cli.cmd ≠ .kill9 →
        targetOf { cli with localMode := b } = targetOf cli :=
  ⟨endpointPort_iff, endpointPort_eq_ok, fun _ _ => targetOf_iff, fun _ b h =>
    targetOf_localMode h b⟩

/-- Userinfo with colons and an `@` in it, a bracketed host, and a leading zero. -/
def ownersUrl : Url where
  scheme := .wss
  userinfo := some ⟨"a:80@b:[1]".toList, by simp [isDelimiter]⟩
  host := .v6 "::1".toList (by simp [isDelimiter])
  port := some ⟨false, "07509".toList, by simp⟩
  plain := by simp
  tail := ⟨"?x=ws://h:18888".toList, by simp [isDelimiter]⟩

/-- The port is the owner's: no run of `group` reads from it, whereas one may write to the
other node, and is sent there. -/
theorem ownersUrl_guarded :
    endpointPort ownersUrl.render = .ok 7509 ∧
      (∀ route,
        targetOf ⟨some "ws://h:18888".toList, true, .group ownersUrl.render⟩ ≠ .ok route) ∧
      targetOf ⟨some "ws://h:+18888".toList, true, .parity⟩ =
        .ok (some "ws://h:+18888".toList) := by
  have hnames : ownersUrl.Names 7509 := ⟨_, rfl, by decide, by decide⟩
  obtain ⟨hport, hurl, htarget, -⟩ := target_guarded
  refine ⟨(hurl ownersUrl 7509).mpr hnames, fun route h => ?_, ?_⟩
  · have hallowed := ((htarget _ route).mp h).2.2 ownersUrl.render rfl
    exact hallowed.2 7509 (by decide) ⟨ownersUrl, rfl, hnames⟩
  · have hread : endpointPort "ws://h:+18888".toList = .ok 18888 := by decide
    refine (htarget _ _).mpr ⟨rfl, ?_, fun _ h => nomatch h⟩
    refine ⟨_, rfl, ⟨18888, (hport _ _).mp hread⟩, fun port hp hnamed => ?_⟩
    have hsame := ((hport _ port).mpr hnamed).symm.trans hread
    cases hsame
    exact absurd hp (by decide)

end FreenetHarness.Endpoint
