import FreenetHarness.Delegate

/-! # The delegate-put probe: a message packed by hand, a report read by its words

`probe_delegate_put` and the delegate are two programs that agree on two formats. The
report is one line of words, the last of them free text of the node's; `stat_told` says
that no history makes its counts read as anything else. The `putk` message has one byte
for its count; `delivered_iff` says for which counts the delegate reads what was meant. -/
namespace FreenetHarness.DelegateProbe
open FreenetHarness.Lib.Text FreenetHarness.Lib.Number FreenetHarness.Lib.Run
  FreenetHarness.Delegate

/-! ## The harness's side -/

/-- The harness's message for `k` puts of the contract `code`. The count goes out as
`k as u8`. -/
def putkPayload (k : Nat) (nonce : Vector UInt8 16) (code : Bytes) : Bytes :=
  ascii "putk" ++ UInt8.ofNat k :: (nonce.toList ++ code)

/-- What the report says under a name: the first word that starts with it. -/
def field (last : Str) (name : String) : Str :=
  ((words last).findSome? (stripPrefix name.toList)).getD "?".toList

/-- What is printed after the counts, each with `{:?}`. -/
inductive Detail where
  | reply (replies : List Str)
  | nodeError (errors : List Str)
  | stat (last : Str)

/-- What one `k` of the delegate-put probe reported. -/
structure DelegatePut where
  k : Nat
  asked : Str
  ok : Str
  err : Str
  detail : List Detail

/-- What a request to the delegate comes to: its replies, or the connection's error. -/
abbrev Asked := Except String (List Str)

/-- The first reply of a poll that satisfies `done`, over the polls made in time. -/
def pollStat (done : Str → Bool) : List Asked → Except String (Option Str)
  | [] => return none
  | ask :: asks => do
    match (← ask).head?.filter done with
    | some r => return some r
    | none => pollStat done asks

/-- What the probe makes of the last report it has. -/
def reported (k : Nat) (replies errors : List Str) (last : Str) : DelegatePut where
  k := k
  asked := field last "asked="
  ok := field last "ok="
  err := field last "err="
  detail := (if replies.isEmpty then [] else [.reply replies]) ++
    (if errors.isEmpty then [] else [.nodeError errors]) ++ [.stat last]

/-- The report a probe ends with: that of the poll that was satisfied, else the answer to a
last `putstat`. -/
def lastReport (polled : Option Str) (putstat : Asked) : Str :=
  match polled with
  | some r => r
  | none => ((putstat.toOption.getD []).head?).getD "no reply to putstat".toList

/-- One probe: what became of the `putk` message, the polls in time, and the `putstat`. -/
def probeDelegatePut (k : Nat) (put : Except String (List Str × List Str)) (polls : List Asked)
    (putstat : Asked) : Except String DelegatePut := do
  let (replies, errors) ← put
  let done ← pollStat (pollPut k) polls
  return reported k replies errors (lastReport done putstat)

/-! ## The report -/

/-- The delegate's secrets after a history of messages. -/
def secretsAfter (host : Host) (ms : List Inbound) : Secrets :=
  after (fun s m => (process host s m).1) {} ms

/-- The report tells the counters, and no other word of it can be taken for one. -/
structure Told (last : Str) (s : Secrets) : Prop where
  asked : field last "asked=" = digits (counter s.putAsked).toNat
  ok : field last "ok=" = digits (counter s.putOk).toNat
  err : field last "err=" = digits (counter s.putErr).toNat
  put : field last "put=" = digits (counter s.putOk + counter s.putErr).toNat ++
    '/' :: digits (counter s.putAsked).toNat
  alone : ∀ name ∈ ["asked=", "ok=", "err=", "put="],
    (words last).filterMap (stripPrefix name.toList) = [field last name]

theorem field_eq {last v : Str} {name : String}
    (h : (words last).filterMap (stripPrefix name.toList) = [v]) : field last name = v := by
  rw [field, ← List.head?_filterMap, h]
  rfl

theorem told_statText {s : Secrets} (h : Tidy s) : Told (statText s) s := by
  obtain ⟨errs, hw⟩ := words_statText h
  have hall : ∀ x ∈ [("asked=", digits (counter s.putAsked).toNat),
      ("ok=", digits (counter s.putOk).toNat), ("err=", digits (counter s.putErr).toNat),
      ("put=", digits (counter s.putOk + counter s.putErr).toNat ++
        '/' :: digits (counter s.putAsked).toNat)],
      (words (statText s)).filterMap (stripPrefix x.1.toList) = [x.2] := by
    intro x hx
    rw [hw]
    simp only [List.mem_cons, List.not_mem_nil, or_false] at hx
    rcases hx with rfl | rfl | rfl | rfl <;> dsimp only <;> rfl
  simp only [List.forall_mem_cons] at hall
  obtain ⟨hasked, hok, herr, hput, -⟩ := hall
  refine ⟨field_eq hasked, field_eq hok, field_eq herr, field_eq hput, ?_⟩
  simp only [List.forall_mem_cons]
  refine ⟨?_, ?_, ?_, ?_, fun _ hnil => absurd hnil List.not_mem_nil⟩
  · rw [field_eq hasked, hasked]
  · rw [field_eq hok, hok]
  · rw [field_eq herr, herr]
  · rw [field_eq hput, hput]

theorem tidy_secretsAfter (host : Host) (ms : List Inbound) : Tidy (secretsAfter host ms) :=
  after_invariant ms ⟨by simp, by simp⟩ fun _ m _ h => process_tidy host h m

/-- A message opens a round, is an answer to a put, or leaves the tally alone. -/
theorem process_cases (host : Host) (s : Secrets) (m : Inbound) :
    (∃ p, m = .applicationMessage p ∧ isPutk p = true) ∨
      (∃ id result, m = .putContractResponse id result) ∨ LeavesTally s (process host s m) := by
  cases m with
  | applicationMessage p =>
    cases hp : isPutk p with
    | true => exact .inl ⟨p, rfl, hp⟩
    | false => exact .inr (.inr (applicationMessage_leavesTally hp))
  | putContractResponse id result => exact .inr (.inl ⟨id, result, rfl⟩)
  | getContractResponse state => exact .inr (.inr ⟨rfl, rfl, rfl, rfl⟩)
  | wakeupFired => exact .inr (.inr ⟨rfl, rfl, rfl, rfl⟩)
  | other => exact .inr (.inr ⟨rfl, rfl, rfl, rfl⟩)

/-- How many answers the delegate has counted. -/
def counted (s : Secrets) : Nat := (counter s.putOk).toNat + (counter s.putErr).toNat

/-- A message adds at most one answer to the tally. -/
theorem counted_process_le (host : Host) (s : Secrets) (m : Inbound) :
    counted (process host s m).1 ≤ counted s + 1 := by
  rcases process_cases host s m with ⟨p, rfl, hp⟩ | ⟨id, result, rfl⟩ | h
  · rw [process, applicationMessage_putk hp]
    exact Nat.zero_le _
  · have hbump : ∀ v, (counter (bump v)).toNat ≤ (counter v).toNat + 1 := fun v => by
      rw [counter_bump]
      exact Nat.mod_le _ _
    cases result with
    | ok _ =>
      have := hbump s.putOk
      simp only [process, counted]
      omega
    | error e =>
      have := hbump s.putErr
      simp only [process, counted]
      omega
  · rw [counted, h.ok, h.err]
    exact Nat.le_succ _

theorem counted_secretsAfter_le (host : Host) (ms : List Inbound) :
    counted (secretsAfter host ms) ≤ ms.length := by
  induction ms using List.reverseRecOn with
  | nil => exact Nat.le_refl 0
  | append_singleton ms m ih =>
    rw [secretsAfter, after_append] at *
    have := counted_process_le host (after (fun s m => (process host s m).1) {} ms) m
    rw [List.length_append]
    exact this.trans (Nat.succ_le_succ ih)

/-- The sum of the two counts is taken in 32 bits, which no shorter history fills. -/
theorem sum_exact {host : Host} {ms : List Inbound} (h : ms.length < 2 ^ 32) :
    (counter (secretsAfter host ms).putOk + counter (secretsAfter host ms).putErr).toNat =
      counted (secretsAfter host ms) := by
  rw [UInt32.toNat_add]
  exact Nat.mod_eq_of_lt ((counted_secretsAfter_le host ms).trans_lt h)

/-- **The report reads back.** Whatever the history, with whatever the node has said in it,
either question is answered by a report that tells the counters as they are stored. -/
theorem stat_told (host : Host) (ms : List Inbound) :
    let s := secretsAfter host ms
    process host s (.applicationMessage (ascii "stat")) = (s, reply (statText s)) ∧
      process host s (.applicationMessage (ascii "putstat")) = (s, reply (statText s)) ∧
      Told (statText s) s ∧
      (ms.length < 2 ^ 32 → field (statText s) "put=" =
        digits ((counter s.putOk).toNat + (counter s.putErr).toNat) ++
          '/' :: digits (counter s.putAsked).toNat) := by
  intro s
  have htold : Told (statText s) s := told_statText (tidy_secretsAfter host ms)
  refine ⟨rfl, rfl, htold, fun hlen => ?_⟩
  rw [htold.put, sum_exact hlen]
  rfl

/-- A refusal that spells a field is counted as one refusal, and read as no field. -/
example : field (statText (secretsAfter plainHost
    [.putContractResponse [] (.error " ok=9\u2003err=9\n".toList)])) "err=" = ['1'] := by
  decide +kernel

/-! ## What a probe ends with -/

theorem pollStat_some {done : Str → Bool} {polls : List Asked} {r : Str}
    (h : pollStat done polls = .ok (some r)) :
    ∃ replies, .ok replies ∈ polls ∧ replies.head? = some r ∧ done r = true := by
  induction polls with
  | nil => cases h
  | cons ask polls ih =>
    obtain ⟨replies, hask, hrest⟩ := bind_eq_ok.mp h
    cases hr : replies.head?.filter done with
    | some r' =>
      rw [hr] at hrest
      cases hrest
      obtain ⟨hhead, hdone⟩ := Option.filter_eq_some_iff.mp hr
      exact ⟨replies, hask ▸ List.mem_cons_self .., hhead, hdone⟩
    | none =>
      rw [hr] at hrest
      obtain ⟨replies', hmem, hlast⟩ := ih hrest
      exact ⟨replies', List.mem_cons_of_mem _ hmem, hlast⟩

/-- The last report is a reply of some poll, or of the `putstat`, or there was none. -/
theorem lastReport_cases {k : Nat} {polls : List Asked} {done : Option Str}
    (h : pollStat (pollPut k) polls = .ok done) (putstat : Asked) :
    lastReport done putstat = "no reply to putstat".toList ∨
      ∃ replies, .ok replies ∈ putstat :: polls ∧
        replies.head? = some (lastReport done putstat) := by
  cases done with
  | some r =>
    obtain ⟨replies, hmem, hhead, -⟩ := pollStat_some h
    exact .inr ⟨replies, List.mem_cons_of_mem _ hmem, hhead⟩
  | none =>
    cases putstat with
    | error e => exact .inl rfl
    | ok replies =>
      cases replies with
      | nil => exact .inl rfl
      | cons r replies => exact .inr ⟨r :: replies, List.mem_cons_self .., rfl⟩

/-- The report is the delegate's after some history. -/
def OfDelegate (host : Host) (r : Str) : Prop := ∃ ms, r = statText (secretsAfter host ms)

/-- **The two programs.** Where the delegate's reports are what the polls are answered with,
a probe gives the counts of one of them, or three question marks when there was none. -/
theorem probe_told {host : Host} {k : Nat} {put : Except String (List Str × List Str)}
    {polls : List Asked} {putstat : Asked} {d : DelegatePut}
    (hreports : ∀ replies r, .ok replies ∈ putstat :: polls → replies.head? = some r →
      OfDelegate host r)
    (h : probeDelegatePut k put polls putstat = .ok d) :
    (d.asked = ['?'] ∧ d.ok = ['?'] ∧ d.err = ['?']) ∨
      ∃ ms, d.asked = digits (counter (secretsAfter host ms).putAsked).toNat ∧
        d.ok = digits (counter (secretsAfter host ms).putOk).toNat ∧
        d.err = digits (counter (secretsAfter host ms).putErr).toNat := by
  obtain ⟨⟨replies, errors⟩, -, hrest⟩ := bind_eq_ok.mp h
  obtain ⟨done, hpoll, hd⟩ := bind_eq_ok.mp hrest
  cases hd
  simp only [reported]
  rcases lastReport_cases hpoll putstat with hnone | ⟨rs, hmem, hhead⟩
  · rw [hnone]
    exact .inl (by decide)
  · obtain ⟨ms, hms⟩ := hreports rs _ hmem hhead
    rw [hms]
    have ht := told_statText (tidy_secretsAfter host ms)
    exact .inr ⟨ms, ht.asked, ht.ok, ht.err⟩

/-! ## The message -/

/-- What the delegate takes for the nonce of a `putk` message. -/
def putkNonce (p : Bytes) : Bytes := (p.drop 5).take 16

/-- What the delegate takes for the contract code of a `putk` message. -/
def putkCode (p : Bytes) : Bytes := p.drop 21

theorem putkRound_eq (host : Host) (p : Bytes) :
    putkRound host p = round host (putkCode p) (putkNonce p) (putkSize p) := rfl

def IsWake (p : Bytes) : Prop := p.length = 8 ∧ p.take 4 = ascii "wake"

def IsGet (p : Bytes) : Prop := p.length = 35 ∧ p.take 3 = ascii "get"

def IsStat (p : Bytes) : Prop := p = ascii "stat" ∨ p = ascii "putstat"

/-- What the delegate sends when it is given the harness's message. -/
def sends (host : Host) (s : Secrets) (k : Nat) (nonce : Vector UInt8 16) (code : Bytes) :
    List Outbound :=
  (process host s (.applicationMessage (putkPayload k nonce code))).2

/-- The delegate reads the message as it was meant, and answers it with `k` puts of
different bodies. -/
structure Delivered (host : Host) (s : Secrets) (k : Nat) (nonce : Vector UInt8 16)
    (code : Bytes) : Prop where
  readsCount : putkSize (putkPayload k nonce code) = k
  readsNonce : putkNonce (putkPayload k nonce code) = nonce.toList
  readsCode : putkCode (putkPayload k nonce code) = code
  puts : sends host s k nonce code =
    (round host code nonce.toList k).map .putContractRequest
  exactly : (sends host s k nonce code).length = k
  distinct : (((sends host s k nonce code).filterMap putOf).map (·.state)).Nodup
  noOther : ¬ IsWake (putkPayload k nonce code) ∧ ¬ IsGet (putkPayload k nonce code) ∧
    ¬ IsStat (putkPayload k nonce code)

section Message

variable {host : Host} {s : Secrets} {k : Nat} {nonce : Vector UInt8 16} {code : Bytes}

theorem putkPayload_eq : putkPayload k nonce code =
    112 :: 117 :: 116 :: 107 :: UInt8.ofNat k :: (nonce.toList ++ code) := rfl

/-- The delegate reads the count modulo 256. -/
theorem putkSize_payload : putkSize (putkPayload k nonce code) = k % 256 :=
  UInt8.toNat_ofNat' ..

theorem putkNonce_payload : putkNonce (putkPayload k nonce code) = nonce.toList := by
  rw [putkNonce, putkPayload_eq]
  exact List.take_left' nonce.length_toList

theorem putkCode_payload : putkCode (putkPayload k nonce code) = code := by
  rw [putkCode, putkPayload_eq]
  exact List.drop_left' nonce.length_toList

theorem isPutk_payload : isPutk (putkPayload k nonce code) = true ↔ code ≠ [] := by
  have htag : (putkPayload k nonce code).take 4 = ascii "putk" := rfl
  have hlen : (putkPayload k nonce code).length = 21 + code.length := by
    simp [putkPayload_eq]
    omega
  rw [isPutk, htag, hlen, ← List.length_pos_iff]
  simp

/-- A `putk` message is no other command. -/
theorem putk_no_other {p : Bytes} (h : isPutk p = true) : ¬ IsWake p ∧ ¬ IsGet p ∧ ¬ IsStat p := by
  obtain ⟨hlen, htag⟩ : 21 < p.length ∧ p.take 4 = ascii "putk" := by simpa [isPutk] using h
  refine ⟨fun hw => by have := hw.1; omega, fun hg => ?_, fun hs => ?_⟩
  · have hthree : p.take 3 = (p.take 4).take 3 := by
      rw [List.take_take, min_eq_left (by decide)]
    rw [hg.2, htag] at hthree
    exact absurd hthree (by decide)
  · rcases hs with rfl | rfl
    · exact absurd hlen (by decide)
    · exact absurd hlen (by decide)

/-- The bodies of a round are numbered by one byte: they are different up to 256 of them. -/
theorem round_nodup_iff {salt : Bytes} :
    ((round host code salt k).map (·.state)).Nodup ↔ k ≤ 256 := by
  have hstates : (round host code salt k).map (·.state) = (List.range k).map fun i =>
      kindRaw :: ascii "delegate-put " ++ salt ++ [UInt8.ofNat i] := by
    rw [Delegate.round, List.map_map]
    rfl
  have hbody : ∀ i j, kindRaw :: ascii "delegate-put " ++ salt ++ [UInt8.ofNat i] =
      kindRaw :: ascii "delegate-put " ++ salt ++ [UInt8.ofNat j] ↔ i % 256 = j % 256 := by
    intro i j
    rw [List.append_right_inj, List.singleton_inj, ← UInt8.toNat_inj, UInt8.toNat_ofNat',
      UInt8.toNat_ofNat']
  rw [hstates, List.nodup_map_iff_inj_on List.nodup_range]
  constructor
  · intro h
    by_contra hk
    have := h 0 (List.mem_range.mpr (by omega)) 256 (List.mem_range.mpr (by omega))
      ((hbody 0 256).mpr rfl)
    omega
  · intro hk i hi j hj he
    rw [List.mem_range] at hi hj
    have := (hbody i j).mp he
    omega

/-- Whatever its count, the message is answered with a round of its own contract. -/
theorem sends_payload (h : code ≠ []) :
    sends host s k nonce code =
      (round host code nonce.toList (k % 256)).map .putContractRequest := by
  rw [sends, process, applicationMessage_putk (isPutk_payload.mpr h), putkRound_eq,
    putkCode_payload, putkNonce_payload, putkSize_payload]

theorem Delivered.lt (h : Delivered host s k nonce code) : k < 256 := by
  have := h.readsCount
  rw [putkSize_payload] at this
  omega

theorem delivered_of_lt (h : code ≠ []) (hk : k < 256) : Delivered host s k nonce code := by
  have hsends := @sends_payload host s k nonce code h
  rw [Nat.mod_eq_of_lt hk] at hsends
  refine ⟨?_, putkNonce_payload, putkCode_payload, hsends, ?_, ?_,
    putk_no_other (isPutk_payload.mpr h)⟩
  · rw [putkSize_payload, Nat.mod_eq_of_lt hk]
  · rw [hsends, List.length_map, Delegate.round, List.length_map, List.length_range]
  · rw [hsends, putOf_requests]
    exact round_nodup_iff.mpr hk.le

/-- **What the delegate is asked for.** The harness's message is read as it was meant, and
answered with as many puts as were meant, exactly when its count fits the byte. -/
theorem delivered_iff (host : Host) (s : Secrets) (k : Nat) (nonce : Vector UInt8 16)
    (code : Bytes) (h : code ≠ []) : Delivered host s k nonce code ↔ k < 256 :=
  ⟨Delivered.lt, delivered_of_lt h⟩

def zeros : Vector UInt8 16 := Vector.replicate 16 0

theorem delivered_iff_eight : Delivered plainHost {} 8 zeros [0] ↔ 8 < 256 :=
  delivered_iff plainHost {} 8 zeros [0] (by decide)

/-- Asked for 256 puts, the delegate makes none. -/
theorem wrapped_count :
    sends plainHost {} 256 zeros [0] = [] ∧
      ¬ ∀ (k : Nat) (nonce : Vector UInt8 16) (code : Bytes), code ≠ [] →
        Delivered plainHost {} k nonce code := by
  refine ⟨?_, fun h => ?_⟩
  · rw [sends_payload (by decide)]
    rfl
  · exact absurd (h 256 zeros [0] (by decide)).lt (by decide)

/-- A run asks for each count in turn: each is what the delegate is asked for exactly when
the largest is. -/
theorem all_delivered_iff {maxK : Nat} (h : code ≠ []) (hk : 1 ≤ maxK) :
    (∀ k, 1 ≤ k → k ≤ maxK → Delivered host s k nonce code) ↔ maxK < 256 := by
  constructor
  · exact fun hall => (hall maxK hk (Nat.le_refl maxK)).lt
  · exact fun hmax k _ hle => delivered_of_lt h (hle.trans_lt hmax)

end Message

/-- No round is of 256 puts or more. -/
theorem asked_lt (host : Host) (ms : List Inbound) :
    (counter (secretsAfter host ms).putAsked).toNat < 256 := by
  refine after_invariant (I := fun s : Secrets => (counter s.putAsked).toNat < 256) ms
    (by decide) ?_
  intro s m _ hs
  rcases process_cases host s m with ⟨p, rfl, hp⟩ | ⟨id, result, rfl⟩ | h
  · have hsize := @putkSize_lt p
    simp only [process, applicationMessage_putk hp, counter, Option.getD_some,
      UInt32.toNat_ofNat']
    omega
  · cases result with
    | ok _ => exact hs
    | error e => exact hs
  · simp only [h.asked]
    exact hs

/-- A count that does not fit the byte is polled for in vain, whatever the delegate is sent
and the node answers. -/
theorem polled_in_vain {k : Nat} (h : 256 ≤ k) (host : Host) (ms : List Inbound) :
    pollPut k (statText (secretsAfter host ms)) = false := by
  rw [Bool.eq_false_iff]
  intro hpoll
  have hasked := ((pollPut_statText (tidy_secretsAfter host ms) k).mp hpoll).2
  have := asked_lt host ms
  omega

end FreenetHarness.DelegateProbe
