import FreenetHarness.Latency.Kinds

/-! # A run of `latency`

Which measurements a run makes, in which order, and with whose build. `run_jobs` says that it
makes those it was asked for and no others, each with the build that passed for its kind,
and that what the delegate is given is the file as it is. -/
namespace FreenetHarness.Latency
open FreenetHarness.Lib.Text FreenetHarness.Lib.Programs FreenetHarness.Lib.Table
  FreenetHarness.Stats
open FreenetHarness.Artefact (Outside Passes)

/-- Which of the measurements to run. -/
inductive Part where
  | all
  | series
  | put
  | get
  | parallel
  | delegatePut
  | readable
  deriving DecidableEq

def Part.wants (only part : Part) : Bool :=
  only == .all || only == part || (only == .series && (part == .put || part == .get))

/-- One measurement, and the build it is made with. -/
inductive Job where
  | series (kind : String) (size : Nat) (code : Bytes)
  | readable (kind : String) (size : Nat) (code : Bytes)
  | parallel (n : Nat) (code : Bytes)
  | delegatePut (k : Nat) (code : Bytes)
  deriving DecidableEq

structure Config where
  wasm : Str
  delegateWasm : Str
  kinds : List Str
  expectSha : List Str
  samples : Nat
  sizes : List Nat
  parallel : List Nat
  maxK : Nat
  only : Part
  budgetSecs : Nat

/-- What a run meets: the clocks it checks its budget against, how its connections open, and
what each measurement comes to, with the keys it stored. -/
structure Meets (Key : Type) where
  started : Nat
  beforeReadable : Nat
  beforeParallel : Nat
  beforeDelegate : Nat
  client : Except String Unit
  reader : Except String Unit
  asker : Except String Unit
  registered : Except String Unit
  measured : Nat → Except String (List Key)

inductive Fault where
  | noSamples
  | refused (r : Refusal)
  | failed (e : String)
  /-- A build looked up by a kind that has none. -/
  | missing (kind : String)
  deriving DecidableEq

structure Run (Key : Type) where
  opened : List Str := []
  jobs : List Job := []
  skipped : List String := []
  /-- Every key the run asked the node to store. -/
  minted : List Key := []

variable {Key : Type}

/-- The budget is over; none is given with 0. -/
def Config.spent (c : Config) (m : Meets Key) (clock : Nat) : Bool :=
  0 < c.budgetSecs && m.started + seconds c.budgetSecs ≤ clock

def outcome {α : Type} (r : Except String α) : Program (Run Key) Fault α :=
  attempt (r.mapError .failed)

def openFile (path : Str) : Program (Run Key) Fault Unit :=
  modify fun s => { s with opened := s.opened ++ [path] }

/-- A measurement is begun, comes to what it comes to, and adds what it stored. -/
def measure (m : Meets Key) (job : Job) : Program (Run Key) Fault Unit := do
  let s ← get
  modify fun s => { s with jobs := s.jobs ++ [job] }
  let keys ← outcome (m.measured s.jobs.length)
  modify fun s => { s with minted := s.minted ++ keys }

def codeOf (codes : List (String × Bytes)) (name : String) : Except Fault Bytes :=
  match firstFor codes name with
  | none => .error (.missing name)
  | some code => .ok code

/-- Every measured kind at every size it can hold. -/
def ladder (m : Meets Key) (c : Config) (codes : List (String × Bytes)) (selected : List Kind) :
    Program (Run Key) Fault Unit :=
  if c.only.wants .put || c.only.wants .get then
    each (fun k => each (fun size => match skipNote k size with
      | some note => modify fun s => { s with skipped := s.skipped ++ [note] }
      | none => do
        let code ← attempt (codeOf codes k.name)
        measure m (.series k.name size code)) c.sizes) selected
  else pure ()

/-- A part that measures Block: wanted, in time, and with Block's build at hand. -/
def blockPart (wanted spent : Bool) (code : Option Bytes) (body : Bytes → Program (Run Key) Fault Unit) :
    Program (Run Key) Fault Unit :=
  if wanted && !spent then
    match code with
    | none => pure ()
    | some code => body code
  else pure ()

def readablePart (m : Meets Key) (c : Config) (block : Kind) (code : Bytes) :
    Program (Run Key) Fault Unit := do
  outcome m.reader
  each (fun size =>
    if block.cap < size then pure () else measure m (.readable block.name size code)) c.sizes

def parallelPart (m : Meets Key) (c : Config) (code : Bytes) : Program (Run Key) Fault Unit :=
  each (fun n => measure m (.parallel n code)) c.parallel

/-- A put asked of the delegate; the run counts no key for it. -/
def askDelegate (m : Meets Key) (code : Bytes) (k : Nat) : Program (Run Key) Fault Unit := do
  let s ← get
  modify fun s => { s with jobs := s.jobs ++ [.delegatePut k code] }
  let _ ← outcome (m.measured s.jobs.length)
  pure ()

variable (o : Outside) (p : Paths) (l : Limits)

def delegatePart (m : Meets Key) (c : Config) : Program (Run Key) Fault Unit :=
  if c.only.wants .delegatePut && !c.spent m m.beforeDelegate then do
    openFile c.wasm
    let code ← outcome (o.files c.wasm)
    outcome m.asker
    openFile c.delegateWasm
    outcome m.registered
    each (askDelegate m code) (List.range' 1 c.maxK)
  else pure ()

/-- The parts of a run, once it has its builds. -/
def parts (m : Meets Key) (c : Config) (selected : List Kind) (codes : List (String × Bytes)) :
    Program (Run Key) Fault Unit := do
  let block := firstFor codes (blockKind l).name
  outcome m.client
  ladder m c codes selected
  blockPart (c.only.wants .readable) (c.spent m m.beforeReadable) block
    (readablePart m c (blockKind l))
  blockPart (c.only.wants .parallel) (c.spent m m.beforeParallel) block (parallelPart m c)
  delegatePart o m c

def run (m : Meets Key) (c : Config) : Program (Run Key) Fault Unit := do
  attempt (if c.samples = 0 then .error .noSamples else .ok ())
  let selected ← attempt ((selectKinds (kinds l) c.kinds).mapError .refused)
  let codes ← focus Run.opened (fun s opened => { s with opened })
    (mapError .refused (loadCodes o p selected c.wasm c.expectSha))
  parts o l m c selected codes

/-! ## The jobs of a run -/

/-- Builds by the name of their kind, as the code keeps them. -/
def codesOf (builds : List (Kind × Bytes)) : List (String × Bytes) :=
  builds.map fun x => (x.1.name, x.2)

/-- The build of Block, where it is one of these. -/
def blockCode (builds : List (Kind × Bytes)) : Option Bytes :=
  firstFor (codesOf builds) (blockKind l).name

/-- The jobs of a part that measures Block. -/
def blockJobs (wanted spent : Bool) (code : Option Bytes) (jobs : Bytes → List Job) : List Job :=
  if wanted && !spent then (code.map jobs).getD [] else []

/-- The jobs asked for: the ladder, kind after kind; Block's own parts; and the delegate's,
which is given the file as it is. -/
def jobsOf (m : Meets Key) (c : Config) (builds : List (Kind × Bytes)) : List Job :=
  (if c.only.wants .put || c.only.wants .get then
    builds.flatMap fun x => (c.sizes.filter (· ≤ x.1.cap)).map fun size => .series x.1.name size x.2
  else []) ++
  (blockJobs (c.only.wants .readable) (c.spent m m.beforeReadable) (blockCode l builds)
    (fun code => (c.sizes.filter (· ≤ l.maxBody)).map fun size => .readable "Block" size code)) ++
  (blockJobs (c.only.wants .parallel) (c.spent m m.beforeParallel) (blockCode l builds)
    (fun code => c.parallel.map fun n => .parallel n code)) ++
  (if c.only.wants .delegatePut && !c.spent m m.beforeDelegate then
    match o.files c.wasm with
    | .error _ => []
    | .ok code => (List.range' 1 c.maxK).map fun k => .delegatePut k code
  else [])

/-- The builds a run goes on with: one for every kind it measures, each passed for the hash the
flags give its kind. -/
structure Gated (c : Config) (selected : List Kind) (builds : List (Kind × Bytes)) : Prop where
  chosen : selectKinds (kinds l) c.kinds = .ok selected
  kinds : builds.map Prod.fst = selected
  passed : ∃ pairs, Entries c.expectSha pairs ∧
    ∀ x ∈ builds, ∃ sha, Told pairs x.1 sha ∧ Passes o (p.wasm c.wasm x.1) sha x.2

section Jobs

variable {m : Meets Key} {c : Config}

theorem appends_outcome {α : Type} (r : Except String α) :
    Appends Run.jobs (outcome r : Program (Run Key) Fault α) [] := .attempt _

theorem appends_openFile (path : Str) :
    Appends Run.jobs (openFile path : Program (Run Key) Fault Unit) [] :=
  .modify fun s => (List.append_nil s.jobs).symm

theorem appends_get : Appends Run.jobs (get : Program (Run Key) Fault (Run Key)) [] :=
  fun s => (List.append_nil s.jobs).symm

theorem appends_measure (job : Job) : Appends Run.jobs (measure m job) [job] := by
  refine appends_get.after fun s => ?_
  refine (Appends.modify fun s => rfl).before fun _ => ?_
  exact (appends_outcome _).after fun keys => .modify fun s => (List.append_nil s.jobs).symm

theorem appends_askDelegate (code : Bytes) (k : Nat) :
    Appends Run.jobs (askDelegate m code k) [.delegatePut k code] := by
  refine appends_get.after fun s => ?_
  refine (Appends.modify fun s => rfl).before fun _ => ?_
  exact (appends_outcome _).after fun _ => .pure ()

theorem codeOf_builds {builds : List (Kind × Bytes)}
    (hnames : (builds.map fun x => x.1.name).Nodup) {x : Kind × Bytes} (hx : x ∈ builds) :
    codeOf (codesOf builds) x.1.name = .ok x.2 := by
  have hkeys : ((codesOf builds).map Prod.fst).Nodup := by
    rw [codesOf, List.map_map]
    exact hnames
  have hfirst := (firstFor_eq_some_iff hkeys).mpr (List.mem_map.mpr ⟨x, hx, rfl⟩)
  unfold codeOf
  rw [hfirst]

theorem appends_ladder {builds : List (Kind × Bytes)} (hnames : (builds.map fun x => x.1.name).Nodup) :
    Appends Run.jobs (ladder m c (codesOf builds) (builds.map Prod.fst))
      (if c.only.wants .put || c.only.wants .get then
        builds.flatMap fun x => (c.sizes.filter (· ≤ x.1.cap)).map fun size =>
          .series x.1.name size x.2
      else []) := by
  unfold ladder
  split
  · rw [each_map]
    refine .each fun x hx => .each_filter fun size _ => ?_
    rw [codeOf_builds hnames hx]
    unfold skipNote
    by_cases hcap : x.1.cap < size
    · rw [if_pos hcap, if_neg (by simpa using hcap)]
      exact .modify fun s => (List.append_nil s.jobs).symm
    · rw [if_neg hcap, if_pos (by simpa using hcap)]
      exact appends_measure _
  · exact .pure ()

theorem appends_blockPart {wanted spent : Bool} {code : Option Bytes}
    {body : Bytes → Program (Run Key) Fault Unit} {jobs : Bytes → List Job}
    (h : ∀ code, Appends Run.jobs (body code) (jobs code)) :
    Appends Run.jobs (blockPart wanted spent code body) (blockJobs wanted spent code jobs) := by
  unfold blockPart blockJobs
  split
  · cases code with
    | none => exact .pure ()
    | some code => exact h code
  · exact .pure ()

theorem appends_delegatePart : Appends Run.jobs (delegatePart o m c)
    (if c.only.wants .delegatePut && !c.spent m m.beforeDelegate then
      match o.files c.wasm with
      | .error _ => []
      | .ok code => (List.range' 1 c.maxK).map fun k => .delegatePut k code
    else []) := by
  unfold delegatePart
  split
  · refine (appends_openFile _).after fun _ => ?_
    cases hf : o.files c.wasm with
    | error e =>
      intro s
      exact ⟨[], List.prefix_rfl, (List.append_nil s.jobs).symm⟩
    | ok code =>
      refine (appends_outcome m.asker).after fun _ => ?_
      refine (appends_openFile _).after fun _ => ?_
      refine (appends_outcome m.registered).after fun _ => ?_
      dsimp only
      rw [List.map_eq_flatMap]
      exact .each fun k _ => appends_askDelegate code k
  · exact .pure ()

theorem appends_parts {builds : List (Kind × Bytes)}
    (hnames : (builds.map fun x => x.1.name).Nodup) :
    Appends Run.jobs (parts o l m c (builds.map Prod.fst) (codesOf builds))
      (jobsOf o l m c builds) := by
  unfold parts jobsOf
  refine (appends_outcome m.client).after fun _ => ?_
  rw [List.append_assoc, List.append_assoc]
  refine (appends_ladder hnames).bind fun _ => ?_
  refine (appends_blockPart fun code => ?_).bind fun _ => ?_
  · refine (appends_outcome m.reader).after fun _ => .each_filter fun size _ => ?_
    by_cases hcap : l.maxBody < size
    · rw [if_pos (show (blockKind l).cap < size from hcap), if_neg (by simpa using hcap)]
      exact .pure ()
    · rw [if_neg (show ¬ (blockKind l).cap < size from hcap), if_pos (by simpa using hcap)]
      exact appends_measure _
  refine (appends_blockPart fun code => ?_).bind fun _ => appends_delegatePart o
  unfold parallelPart
  rw [List.map_eq_flatMap]
  exact .each fun n _ => appends_measure _

end Jobs

/-- What was loaded, put back beside its kinds. -/
theorem exists_builds {R : Kind → Bytes → Prop} {selected : List Kind}
    {codes : List (String × Bytes)}
    (h : List.Forall₂ (fun k x => x.1 = k.name ∧ R k x.2) selected codes) :
    ∃ builds, builds.map Prod.fst = selected ∧ codesOf builds = codes ∧
      ∀ x ∈ builds, R x.1 x.2 := by
  induction h with
  | nil => exact ⟨[], rfl, rfl, by simp⟩
  | @cons k x _ _ hx _ ih =>
    obtain ⟨builds, hkinds, hcodes, hall⟩ := ih
    refine ⟨(k, x.2) :: builds, by simp [hkinds], ?_, List.forall_mem_cons.mpr ⟨hx.2, hall⟩⟩
    rw [codesOf, List.map_cons, ← hcodes]
    exact congrArg (· :: _) (Prod.ext hx.1.symm rfl)

theorem selected_names {names : List Str} {selected : List Kind}
    (h : selectKinds (kinds l) names = .ok selected) : (selected.map Kind.name).Nodup := by
  obtain ⟨-, -, -, rfl⟩ := (selectKinds_of_nodup (kinds_key_nodup l)).mp h
  have hall : ((kinds l).map Kind.name).Nodup := by
    show ["Block", "Register", "Set", "Bag"].Nodup
    decide
  exact hall.sublist (List.filter_sublist.map _)

/-- **The jobs of a run**, however it ends: none before it has its builds, and then those asked
for, in order, up to where it fails; all of them where it goes well. -/
theorem run_jobs (m : Meets Key) (c : Config) :
    let r := exec (run o p l m c) {}
    (r.2.jobs = [] ∧ r.1 ≠ .ok ()) ∨
      ∃ selected builds, Gated o p l c selected builds ∧
        r.2.jobs <+: jobsOf o l m c builds ∧ (r.1 = .ok () → r.2.jobs = jobsOf o l m c builds) := by
  intro r
  have hr : r = exec (run o p l m c) {} := rfl
  clear_value r
  unfold run at hr
  rw [exec_bind, exec_attempt] at hr
  by_cases hsamples : c.samples = 0
  · rw [if_pos hsamples] at hr
    exact .inl (hr ▸ ⟨rfl, by simp⟩)
  rw [if_neg hsamples] at hr
  dsimp only at hr
  rw [exec_bind, exec_attempt] at hr
  cases hsel : selectKinds (kinds l) c.kinds with
  | error e =>
    rw [hsel] at hr
    exact .inl (hr ▸ ⟨rfl, by simp [Except.mapError]⟩)
  | ok selected =>
    rw [hsel] at hr
    dsimp only [Except.mapError] at hr
    rw [exec_bind, exec_focus, exec_mapError] at hr
    rcases hload : exec (loadCodes o p selected c.wasm c.expectSha) [] with ⟨e | codes, opened⟩
    · rw [hload] at hr
      exact .inl (hr ▸ ⟨rfl, by simp [Except.mapError]⟩)
    · rw [hload] at hr
      dsimp only [Except.mapError] at hr
      obtain ⟨pairs, hpairs, hcodes, -⟩ := (loadCodes_ok_iff o p).mp hload
      obtain ⟨builds, rfl, rfl, hpass⟩ := exists_builds (R := fun k code => ∃ sha,
        Told pairs k sha ∧ Passes o (p.wasm c.wasm k) sha code) hcodes
      have hnames : (builds.map fun x => x.1.name).Nodup := by
        have := selected_names l hsel
        rwa [List.map_map] at this
      obtain ⟨hpre, hall⟩ := (appends_parts o l (m := m) (c := c) hnames).of_exec hr.symm rfl
      exact .inr ⟨_, builds, ⟨hsel, rfl, pairs, hpairs, hpass⟩, hpre, hall ()⟩

end FreenetHarness.Latency
