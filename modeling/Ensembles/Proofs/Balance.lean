import Ensembles.Native.Stock
import Ensembles.Proofs.Counting

/-!
# Depth and frames

The variables of an interpreter lie in frames, the global one and one for each procedure that is
running. On a level of nesting a procedure adds a frame at the start and takes it away at the end,
however it ends, and nothing else does (`Task.ends_work`). So at all times there are at most as
many frames as there are levels, and one more; and after a request there are as many as before, at
the same depth (`Interpreter.Reached.balanced`).
-/

namespace Ensembles

variable {α β : Type}

/-! ## Frames -/

namespace State

variable {limit depth : Nat} {s : State}

/-- The frames of variables, the global one first and that of the innermost procedure last. -/
def frames (s : State) : List Scope := s.globals :: s.locals.reverse

/-- The place of the frame that the variable `name` is looked up in. -/
def frameOf (s : State) (name : String) : Nat :=
  if isGlobalName name then 0 else s.frames.length - 1

/-- The name of the variable inside its frame. -/
def keyOf (name : String) : String := .ofList (stripColons name.toList)

theorem length_frames (s : State) : s.frames.length = s.locals.length + 1 := by
  rw [frames, List.length_cons, List.length_reverse]

theorem get?_eq_frame (s : State) (name : String) :
    ∃ f, s.frames[s.frameOf name]? = some f ∧ s.get? name = f.get? (keyOf name) := by
  unfold frameOf get?
  cases hg : isGlobalName name with
  | true => exact ⟨s.globals, rfl, rfl⟩
  | false =>
    cases hl : s.locals with
    | nil => exact ⟨s.globals, by simp [frames, hl], rfl⟩
    | cons scope outer => exact ⟨scope, by simp [frames, hl], rfl⟩

theorem frames_set (s : State) (name value : String) :
    ∃ f, s.frames[s.frameOf name]? = some f ∧
      (s.set name value).frames = s.frames.set (s.frameOf name) (f.set (keyOf name) value) := by
  unfold frameOf set
  cases hg : isGlobalName name with
  | true => exact ⟨s.globals, rfl, rfl⟩
  | false =>
    cases hl : s.locals with
    | nil => exact ⟨s.globals, by simp [frames, hl], by simp [frames, hl, keyOf]⟩
    | cons scope outer => exact ⟨scope, by simp [frames, hl], by simp [frames, hl, keyOf]⟩

/-- The depth is within the limit, there is a frame and there are no more than the depth allows,
and variables are looked up and set in frames that are there. -/
structure InBounds (limit depth : Nat) (s : State) : Prop where
  depth_le : depth ≤ limit
  one_le : 1 ≤ s.frames.length
  le : s.frames.length ≤ depth + 1
  get? : ∀ name, ∃ f, s.frames[s.frameOf name]? = some f ∧ s.get? name = f.get? (keyOf name)
  set : ∀ name value, ∃ f, s.frames[s.frameOf name]? = some f ∧
    (s.set name value).frames = s.frames.set (s.frameOf name) (f.set (keyOf name) value)

theorem inBounds_of_le (hd : depth ≤ limit) (hl : s.locals.length ≤ depth) :
    s.InBounds limit depth where
  depth_le := hd
  one_le := by rw [length_frames]; exact Nat.le_add_left ..
  le := by rw [length_frames]; exact Nat.succ_le_succ hl
  get? := s.get?_eq_frame
  set := s.frames_set

end State

/-! ## The work of a level -/

namespace Work

variable {base most now : Nat}

/-- The work, begun with `now` procedures running, ends with `base` of them. All along there are at
least so many, and at most `most`. -/
def Ends (base most : Nat) : Nat → Work α → Prop
  | now, .done _ => now = base
  | now, .step change next => ∀ s : State, s.locals.length = now →
    base ≤ (change s).locals.length ∧ (change s).locals.length ≤ most ∧
      (next s).Ends base most (change s).locals.length
  | now, .locate _ _ next => ∀ r, (next r).Ends base most now
  | now, .call _ next => ∀ r, (next r).Ends base most now

/-- Work that respects the number of procedures does not change it. -/
theorem Respects.ends {w : Work α} (hw : w.Respects (State.Same Error.Never now) Error.Never)
    (hm : now ≤ most) : w.Ends now most now := by
  induction w with
  | done r => rfl
  | step change next ih =>
    rintro s rfl
    obtain ⟨hc, -, hn⟩ := hw s s s.same_never
    rw [hc.length]
    exact ⟨Nat.le_refl _, hm, ih s hn⟩
  | locate _ _ _ ih => exact fun r => ih r (hw r)
  | call _ _ ih => exact fun r => ih r (hw.1 r)

theorem Ends.map {w : Work α} (hw : w.Ends base most now) (f : α → β) :
    (f <$> w).Ends base most now := by
  rw [map_eq_pure_bind]
  show (w.bind _).Ends base most now
  induction w generalizing now with
  | done r => cases r <;> exact hw
  | step change next ih => exact fun s hs => ⟨(hw s hs).1, (hw s hs).2.1, ih s (hw s hs).2.2⟩
  | locate _ _ _ ih | call _ _ ih => exact fun r => ih r (hw r)

/-- The work inside a procedure, whose frame is then taken away. -/
theorem Ends.followedBy_leave {w : Work α} (hw : w.Ends (base + 1) most now) (hm : base ≤ most) :
    (w.followedBy State.leave).Ends base most now := by
  induction w generalizing now with
  | done r =>
    rintro s rfl
    have hl : s.leave.locals.length = base := by
      rw [State.leave, List.length_tail, hw, Nat.add_sub_cancel]
    exact ⟨Nat.le_of_eq hl.symm, hl ▸ hm, hl⟩
  | step change next ih =>
    exact fun s hs => ⟨Nat.le_of_succ_le (hw s hs).1, (hw s hs).2.1, ih s (hw s hs).2.2⟩
  | locate _ _ _ ih | call _ _ ih => exact fun r => ih r (hw r)

end Work

/-- A task has one more procedure running at most, and none in the end. -/
theorem Task.ends_work (t : Task) (n : Nat) : t.work.Ends n (n + 1) n := by
  have hR := State.nesting_never
  have hflat {w : Work Completion} (hw : w.Respects (State.Same Error.Never n) Error.Never) :
      w.Ends n (n + 1) n := hw.ends (Nat.le_succ n)
  cases t with
  | script commands => exact hflat (Work.respects_evalCommands (hR.like n) _ (fun _ _ => id) _ _)
  | body id commands =>
    exact hflat (Work.respects_bind (Work.respects_declareAll (hR.like n) _ _) fun _ =>
      Work.respects_pure _)
  | dispatch command argv =>
    exact hflat (Work.respects_map (Work.respects_dispatch (hR.like n) _ _) _)
  | invoke argv => exact hflat (Work.respects_invoke (hR.like n) argv)
  | procedure name bindings commands =>
    have hbody := (Work.respects_evalCommands (hR.like (n + 1))
      (fun c e => e.note (.procedureLine name c.line)) (fun _ _ => id) (.normal "")
      commands).ends (Nat.le_refl (n + 1))
    simp only [work, ← map_eq_pure_bind]
    refine Work.Ends.map ?_ _
    rintro s rfl
    exact ⟨Nat.le_succ _, Nat.le_refl _, hbody.followedBy_leave (Nat.le_succ _)⟩

/-! ## Requests -/

theorem Work.respects_evalEachOf {R : State → State → Prop} {cut : Error → Prop}
    (hR : State.Likeness cut R) (l : Listener) (hl : ∀ result s t, R s t →
      R (l.tell result s) (l.tell result t)) (commands : List Command) :
    (evalEachOf l commands).Respects R cut := by
  induction commands with
  | nil => exact respects_pure _
  | cons c commands ih =>
    exact respects_bind (respects_evalCommands hR _ (fun _ _ => id) _ _) fun done =>
      respects_bind (respects_lift (Run.respects_modify (hl done.value))) fun _ => ih

theorem Work.respects_callKept (serial : Nat) (argv : List String) (n : Nat) :
    (callKept serial argv).Respects (State.Same Error.Never n) Error.Never := by
  rintro s _ ⟨rfl, hn, hs⟩
  refine ⟨⟨rfl, hn, hs⟩, rfl, ?_⟩
  simp only
  split
  · exact respects_pure _
  · rename_i h _
    exact respects_map
      (Hosted.respects_work (State.nesting_never.like n) h.native.letsOut_never argv) _

/-- A request leaves the procedures alone on its own level. -/
theorem Request.ends_work (r : Request) (n : Nat) : r.work.Ends n n n := by
  have hR := State.nesting_never.like n
  suffices hw : r.work.Respects (State.Same Error.Never n) Error.Never from hw.ends (Nat.le_refl n)
  cases r with
  | eval script => exact Work.respects_eval script
  | invoke argv => exact Work.respects_task _
  | evalEach l script =>
    refine Work.respects_bind (Work.respects_lift (Run.respects_parse _ _)) fun commands =>
      Work.respects_evalEachOf hR l ?_ commands
    rintro result s _ ⟨rfl, hn, hs⟩
    obtain ⟨_, _, _, _, _, ho⟩ := (l.alone result s).eq
    rw [ho]
    exact ⟨rfl, hn, hs⟩
  | callKept serial argv => exact Work.respects_callKept serial argv n
  | callPart path word argv =>
    refine Work.respects_bind (Work.respects_lift (Run.respects_inquire hR _)) fun found => ?_
    match found with
    | .error e => trivial
    | .ok (.procedure p) | .ok (.ensemble command) => exact Work.respects_pure _
    | .ok (.native serial) =>
      exact Work.respects_followedBy (Work.respects_callKept serial argv n) fun _ _ h =>
        (hR.answer h (.drop serial)).2

namespace Counted

variable {limit depth n base : Nat} {m m' : Counted}

/-- The work on a level with `height` levels below it, with `now` procedures running, is to end
with `base` of them. There were `n` to begin with, and each level adds one at most. -/
def OnLevel (n height base now : Nat) (w : Work Completion) : Prop :=
  ∃ most, (n ≤ base ∧ base ≤ now ∧ now ≤ most ∧ most ≤ n + height) ∧ w.Ends base most now

/-- Each level that waits is handed as many running procedures as it had when it began to wait,
whatever the outcome; the lowest of them ends with `n`. -/
inductive Held (n : Nat) : Nat → List (Except Error Completion → Work Completion) → Prop where
  | nil : Held n n []
  | cons {base base' : Nat} {next : Except Error Completion → Work Completion}
      {waiting : List (Except Error Completion → Work Completion)} :
    (∀ r, OnLevel n waiting.length base' base (next r)) → Held n base' waiting →
      Held n base (next :: waiting)

/-- The depth counts the levels that wait, and every level takes away what it adds. -/
structure Balanced (limit depth n : Nat) (m : Counted) : Prop where
  count : m.depth = depth + m.waiting.length
  le_limit : m.depth ≤ limit
  levels : ∃ base, OnLevel n m.waiting.length base m.state.locals.length m.work ∧
    Held n base m.waiting

theorem Balanced.start {r : Request} {s : State} (hd : depth ≤ limit) :
    (start depth s r.work).Balanced limit depth s.locals.length where
  count := rfl
  le_limit := hd
  levels := ⟨_, ⟨_, ⟨Nat.le_refl _, Nat.le_refl _, Nat.le_refl _, Nat.le_refl _⟩,
    r.ends_work _⟩, .nil⟩

/-- A step keeps depth and frames in balance. -/
theorem Balanced.step (hm : m.Balanced limit depth n) (h : m.step limit = some m') :
    m'.Balanced limit depth n := by
  obtain ⟨⟨s, w, waiting⟩, d⟩ := m
  obtain ⟨hd, hlimit, base, ⟨most, ⟨hn, hb, hmost, hle⟩, hw⟩, hheld⟩ := hm
  simp only at hd hlimit hn hb hmost hle hw hheld
  cases w with
  | done result =>
    cases hheld with
    | nil => cases h
    | @cons _ base' next waiting hnext hheld =>
      cases h
      have hw' : s.locals.length = base := hw
      refine ⟨?_, ?_, base', ?_, hheld⟩
      · simp only [List.length_cons] at hd ⊢
        omega
      · exact Nat.le_trans (Nat.sub_le ..) hlimit
      · simp only [hw']
        exact hnext result
  | step change next =>
    cases h
    obtain ⟨hb', hmost', hnext⟩ := hw s rfl
    exact ⟨hd, hlimit, base, ⟨most, ⟨hn, hb', hmost', hle⟩, hnext⟩, hheld⟩
  | locate current name next =>
    cases h
    have hl : ((Run.locate current name).after s).locals.length = s.locals.length :=
      (Run.respects_locate (State.nesting_never.like _) current name).length_locals
    refine ⟨hd, hlimit, base, ?_, hheld⟩
    simp only [hl]
    exact ⟨most, ⟨hn, hb, hmost, hle⟩, hw _⟩
  | call task next =>
    have hnext (r : Except Error Completion) :
        OnLevel n waiting.length base s.locals.length (next r) :=
      ⟨most, ⟨hn, hb, hmost, hle⟩, hw r⟩
    simp only [Counted.step] at h
    split at h
    · cases h
      refine ⟨?_, by simp only; omega, s.locals.length, ?_, .cons hnext hheld⟩
      · simp only [List.length_cons]
        omega
      · refine ⟨s.locals.length + 1, ⟨?_, Nat.le_refl _, Nat.le_succ _, ?_⟩, task.ends_work _⟩
        · omega
        · simp only [List.length_cons]
          omega
    · cases h
      exact ⟨hd, hlimit, base, hnext _, hheld⟩

theorem Balanced.leads (hm : m.Balanced limit depth n) (h : m.Leads limit m') :
    m'.Balanced limit depth n := by
  induction h with
  | refl => exact hm
  | tail _ hstep ih => exact ih.step hstep

theorem Balanced.bounds (hm : m.Balanced limit depth n) :
    n ≤ m.state.locals.length ∧ m.state.locals.length + depth ≤ n + m.depth := by
  obtain ⟨base, ⟨most, ⟨hn, hb, hmost, hle⟩, -⟩, -⟩ := hm.levels
  have hd := hm.count
  omega

/-- A run that is done is at the depth that it began at, with as many procedures running. -/
theorem Balanced.of_done (hm : m.Balanced limit depth n) (h : m.step limit = none) :
    m.depth = depth ∧ m.state.locals.length = n := by
  obtain ⟨⟨s, w, waiting⟩, d⟩ := m
  obtain ⟨hd, -, base, ⟨most, -, hw⟩, hheld⟩ := hm
  cases w with
  | done result =>
    cases hheld with
    | nil => exact ⟨hd, hw⟩
    | cons hnext hheld => cases h
  | step change next | locate current name next => cases h
  | call task next =>
    simp only [Counted.step] at h
    split at h <;> cases h

end Counted

/-! ## Reachable states -/

namespace Interpreter

/-- The states that a host or a native can find an interpreter in, at the depth given. -/
inductive Reached (root : String) (limit : Nat) : (depth : Nat) → State → Prop where
  | new : Reached root limit 0 (.initial root)
  | register {depth : Nat} {s : State} (name : String) (n : Native) :
    Reached root limit depth s → Reached root limit depth ((Run.register name n).after s)
  | delete {depth : Nat} {s : State} (name : String) :
    Reached root limit depth s → Reached root limit depth ((Run.delete name).after s)
  | create {depth : Nat} {s : State} (path : String) :
    Reached root limit depth s → Reached root limit depth ((Run.create path).after s)
  | addPart {depth : Nat} {s : State} (path name : String) (summary : Option String) (n : Native) :
    Reached root limit depth s →
      Reached root limit depth ((Run.addPart path name summary n).after s)
  | ask {depth : Nat} {s : State} (q : Inquiry) :
    Reached root limit depth s → Reached root limit depth ((Run.inquire q).after s)
  /-- Anywhere in the run that a request makes, the end of it included. -/
  | request {depth : Nat} {s : State} {m : Counted} (r : Request) :
    Reached root limit depth s → (Counted.start depth s r.work).Leads limit m →
      Reached root limit m.depth m.state

variable {root : String} {limit depth : Nat} {s : State}

theorem Reached.le (h : Reached root limit depth s) : depth ≤ limit ∧ s.locals.length ≤ depth := by
  have hR := State.nesting_never
  induction h with
  | new => exact ⟨Nat.zero_le _, Nat.le_refl _⟩
  | register name n _ ih =>
    rwa [(Run.respects_register (hR.like _) name n.letsOut_never).length_locals]
  | delete name _ ih => rwa [(Run.respects_delete (hR.like _) name).length_locals]
  | create path _ ih => rwa [(Run.respects_create (hR.like _) path).length_locals]
  | addPart path name summary n _ ih =>
    rwa [(Run.respects_addPart (hR.like _) path name summary n.letsOut_never).length_locals]
  | ask q _ ih => rwa [(Run.respects_inquire (hR.like _) q).length_locals]
  | request r _ hleads ih =>
    have hm := (Counted.Balanced.start (r := r) ih.1).leads hleads
    obtain ⟨-, hle⟩ := hm.bounds
    exact ⟨hm.le_limit, by omega⟩

/-- Wherever a host or a native finds an interpreter, its frames are in bounds. A request that is
made there ends; at every point of it the frames are in bounds, and when it is over, whatever came
of it, depth and number of frames are what they were. -/
theorem Reached.balanced (h : Reached root limit depth s) :
    s.InBounds limit depth ∧ ∀ r : Request,
      (∃ result s', (Counted.start depth s r.work).Leads limit (.start depth s' (.done result)) ∧
        r.Gives ⟨limit - depth, s⟩ result s' ∧ Reached root limit depth s') ∧
      ∀ m, (Counted.start depth s r.work).Leads limit m →
        m.state.InBounds limit m.depth ∧ s.frames.length ≤ m.state.frames.length ∧
          (m.step limit = none →
            m.depth = depth ∧ m.state.frames.length = s.frames.length) := by
  obtain ⟨hd, hl⟩ := h.le
  refine ⟨State.inBounds_of_le hd hl, fun r => ⟨?_, fun m hleads => ?_⟩⟩
  · obtain ⟨result, s', hleads, hgives⟩ := r.leads_done limit depth s
    exact ⟨result, s', hleads, hgives, h.request r hleads⟩
  have hm := (Counted.Balanced.start (r := r) hd).leads hleads
  obtain ⟨hle, hle'⟩ := hm.bounds
  rw [State.length_frames, State.length_frames]
  refine ⟨State.inBounds_of_le hm.le_limit (by omega), Nat.succ_le_succ hle, fun hdone => ?_⟩
  obtain ⟨hd', hl'⟩ := hm.of_done hdone
  exact ⟨hd', by rw [hl']⟩

/-- Inside a native, which takes up one level, an evaluation ends where it began. -/
theorem Reached.balanced_inside :
    let n : Native := ⟨none, fun _ => Program.evalScript "set x 1"⟩
    let s := ((Run.register "n" n).after (.initial "::r")).beginCall ⟨0, n⟩
    Reached "::r" 2 1 s ∧ s.InBounds 2 1 ∧
      ∀ m, (Counted.start 1 s (Work.eval "set x")).Leads 2 m → m.step 2 = none →
        m.depth = 1 ∧ m.state.frames.length = s.frames.length := by
  intro n s
  let s₀ := (Run.register "n" n).after (.initial "::r")
  have hs₀ : Reached "::r" 2 0 s₀ := .register "n" n .new
  obtain ⟨m, hleads, hd, hm⟩ : ∃ m, (Counted.start 0 s₀ (Request.work (.invoke ["n"]))).Leads 2 m ∧
      m.depth = 1 ∧ m.state = s :=
    ⟨_, .head rfl (.head rfl (.head rfl .refl)), rfl, rfl⟩
  have hs : Reached "::r" 2 1 s := hd ▸ hm ▸ hs₀.request (.invoke ["n"]) hleads
  obtain ⟨hbounds, hrequest⟩ := hs.balanced
  exact ⟨hs, hbounds, fun m' hm' hdone => ((hrequest (.eval "set x")).2 m' hm').2.2 hdone⟩

end Interpreter

end Ensembles
