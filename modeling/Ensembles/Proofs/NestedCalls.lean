import Ensembles.Proofs.FullNames
import Ensembles.Proofs.Isolation

/-!
# Calls that go down

A call of an ensemble goes to the part that its first word selects, or to the catch-all part
(`Run.dispatch_of_choice`), or is refused (`Run.dispatch_of_refused`, `Run.dispatch_of_missing`).
Only a refusal is an error of the ensemble itself: what comes out of a part has a note on the part
(`Run.own_error`).

Where the part is a nested ensemble, the call goes on in that one, a level further down.
`Registry.Leads` are the words that lead down so. A call does what the ensemble that its words lead
to does with the words that are left, and an error gets the notes on all the parts passed, the
innermost first (`Run.dispatch_of_leads`).
-/

namespace Ensembles

/-! ## The part that a word selects -/

section Choice

variable {e : Ensemble} {word : String} {args args' : List String} {p : Part Handler}

theorem Ensemble.choice_of_found (hr : e.parts.resolve word = .found p) (args : List String) :
    e.choice word args = some (p, args) := by
  simp only [choice, hr]

/-- A word that selects no part is for the catch-all part. -/
theorem Ensemble.choice_of_unresolved (hr : ∀ q, e.parts.resolve word ≠ .found q)
    (args : List String) :
    e.choice word args = (e.parts.find? catchAll).map fun p => (p, word :: args) := by
  unfold choice
  split
  · rename_i q hq
    exact absurd hq (hr q)
  · rfl

theorem Ensemble.choice_eq_none_iff : e.choice word args = none ↔
    (∀ q, e.parts.resolve word ≠ .found q) ∧ e.parts.find? catchAll = none := by
  constructor
  · intro h
    have hr (q : Part Handler) : e.parts.resolve word ≠ .found q := by
      intro hq
      rw [choice_of_found hq] at h
      cases h
    rw [choice_of_unresolved hr, Option.map_eq_none_iff] at h
    exact ⟨hr, h⟩
  · rintro ⟨hr, hf⟩
    rw [choice_of_unresolved hr, hf]
    rfl

namespace Run

variable {deeper : Deeper} {s t : State} {command : Handle}

theorem dispatch_of_choice (hb : s.catalog.registry.bound? command = some e)
    (hc : e.choice word args = some (p, args')) (called : String) :
    dispatch deeper command (called :: word :: args) s =
      callNotedPart deeper e.id p.name p.handler args' s := by
  simp only [dispatch, hb, select_of_choice hc]

/-- A word for which there is no part is refused with the listing of the ensemble. -/
theorem dispatch_of_refused (hb : s.catalog.registry.bound? command = some e)
    (hc : e.choice word args = none) (called : String) :
    dispatch deeper command (called :: word :: args) s =
      .error (.of (.unknownPart word (s.catalog.usage e.id))) s := by
  obtain ⟨hr, hf⟩ := Ensemble.choice_eq_none_iff.1 hc
  simp only [dispatch, hb, select]
  cases hw : e.parts.resolve word with
  | found q => exact absurd hw (hr q)
  | ambiguous | absent =>
    simp only [hf]
    rfl

/-- So is a call without a word. -/
theorem dispatch_of_missing (hb : s.catalog.registry.bound? command = some e) (called : String) :
    dispatch deeper command [called] s =
      .error (.of (.missingPart (s.catalog.usage e.id))) s := by
  simp only [dispatch, hb]
  rfl

/-- It does not matter by what name an ensemble is called. -/
theorem dispatch_called (hb : s.catalog.registry.bound? command = some e) (called called' : String)
    (words : List String) :
    dispatch deeper command (called :: words) s = dispatch deeper command (called' :: words) s := by
  cases words <;> simp only [dispatch, hb]

/-- An error that comes out of a part has a note on it. -/
theorem exists_note_of_callNotedPart {id : EnsembleId} {part : String} {handler : Handler}
    {err : Error} (h : callNotedPart deeper id part handler args s = .error err t) :
    ∃ inner : Error, err = inner.note (.partOf part (t.catalog.path id)) := by
  unfold callNotedPart mapError at h
  split at h
  · cases h
  · cases h
    exact ⟨_, rfl⟩

end Run

theorem Error.note_ne_of (e : Error) (n : Note) (cause : Cause) : e.note n ≠ .of cause :=
  fun h => List.append_ne_nil_of_right_ne_nil _ (List.cons_ne_nil n []) (congrArg Error.notes h)

/-- The errors of an ensemble itself, those that come out of none of its parts, are that the call
has no word, and that it has no part for the word. Both show its listing. -/
theorem Run.own_error {deeper : Deeper} {s t : State} {command : Handle} {argv : List String}
    {cause : Cause} (hb : s.catalog.registry.bound? command = some e)
    (h : dispatch deeper command argv s = .error (.of cause) t) :
    cause = .missingPart (s.catalog.usage e.id) ∨
      ∃ word args, argv.tail = word :: args ∧ (∀ q, e.parts.resolve word ≠ .found q) ∧
        e.parts.find? catchAll = none ∧ cause = .unknownPart word (s.catalog.usage e.id) := by
  match argv with
  | [] =>
    simp only [dispatch, hb] at h
    cases h
    exact .inl rfl
  | [called] =>
    rw [dispatch_of_missing hb] at h
    cases h
    exact .inl rfl
  | called :: word :: args =>
    cases hc : e.choice word args with
    | some c =>
      obtain ⟨p, args'⟩ := c
      rw [dispatch_of_choice hb hc] at h
      obtain ⟨inner, hn⟩ := exists_note_of_callNotedPart h
      exact absurd hn.symm (inner.note_ne_of _ cause)
    | none =>
      rw [dispatch_of_refused hb hc] at h
      cases h
      obtain ⟨hr, hf⟩ := Ensemble.choice_eq_none_iff.1 hc
      exact .inr ⟨word, args, rfl, hr, hf, rfl⟩

end Choice

/-! ## Ways down -/

/-- The words `words` of a call lead from an ensemble down to the ensemble `target` and leave
`rest` for that. Each of them is for a part that is a nested ensemble; `links` are these parts. -/
inductive Registry.Leads (r : Registry) (target : Ensemble) (rest : List String) :
    Ensemble → (words : List String) → (links : List ParentLink) → Prop where
  | here : Leads r target rest target rest []
  | part {e below : Ensemble} {word : String} {words words' : List String} {p : Part Handler}
    {h : Handle} {links : List ParentLink} :
    e.choice word words = some (p, words') → p.handler = .ensemble h → r.bound? h = some below →
      Leads r target rest below words' links →
        Leads r target rest e (word :: words) (⟨e.id, p.name⟩ :: links)

/-- The error with notes on the parts that a call passed on its way down. -/
def Error.noteWay (c : Catalog) (links : List ParentLink) (e : Error) : Error :=
  { e with notes := e.notes ++ links.reverse.map fun l => .partOf l.part (c.path l.ensemble) }

@[simp]
theorem Error.noteWay_nil (c : Catalog) (e : Error) : e.noteWay c [] = e := by
  simp [noteWay]

theorem Error.noteWay_cons (c : Catalog) (l : ParentLink) (links : List ParentLink) (e : Error) :
    e.noteWay c (l :: links) = (e.noteWay c links).note (.partOf l.part (c.path l.ensemble)) := by
  simp [noteWay, note]

theorem Registry.Wf.command_of_bound? {r : Registry} (hw : r.Wf) {h : Handle} {e : Ensemble}
    (hb : r.bound? h = some e) : e.command = h :=
  ((bound?_eq_some_iff hw).1 hb).2

theorem Registry.Wf.get?_of_bound? {r : Registry} (hw : r.Wf) {h : Handle} {e : Ensemble}
    (hb : r.bound? h = some e) : r.get? e.id = some e :=
  (get?_eq_some_iff hw).2 ⟨((bound?_eq_some_iff hw).1 hb).1, rfl⟩

theorem Catalog.bound?_of_find? {c : Catalog} (hw : c.registry.Wf) {name : String}
    {e : Ensemble}
    (hn : (c.commands.find? name).bind (c.registry.bound? ·.handle) = some e) :
    c.registry.bound? e.command = some e := by
  obtain ⟨a, -, hb⟩ := Option.bind_eq_some_iff.1 hn
  rw [hw.command_of_bound? hb, hb]

theorem Registry.Leads.bound? {r : Registry} (hw : r.Wf) {e target : Ensemble}
    {words rest : List String} {links : List ParentLink} (hl : r.Leads target rest e words links)
    (hb : r.bound? e.command = some e) : r.bound? target.command = some target := by
  induction hl with
  | here => exact hb
  | part _ _ hbelow _ ih => exact ih (hw.command_of_bound? hbelow ▸ hbelow)

namespace Run

variable {α : Type} {s : State}

theorem mapError_congr_at {x y : Run α} (f : State → Error → Error) (h : x s = y s) :
    x.mapError f s = y.mapError f s := by
  simp only [mapError, h]

theorem mapError_mapError (f g : State → Error → Error) (x : Run α) :
    (x.mapError f).mapError g = x.mapError fun t e => g t (f t e) := by
  funext s
  unfold mapError
  cases x s <;> rfl

/-- A call of a nested ensemble goes on a level further down. -/
theorem callPart_ensemble (levels : Nat) (id : EnsembleId) (part : String) (h : Handle)
    (args : List String) :
    callPart (perform (levels + 1)) id part (.ensemble h) args =
      dispatch (perform levels) h (part :: args) := by
  simp only [callPart, perform, Task.run, bind_assoc, pure_bind, Completion.value, bind_pure]

/-- A call comes to what the ensemble that its words lead to comes to, with notes on the parts that
it passed. -/
theorem dispatch_of_leads (hw : s.catalog.registry.Wf) {e target : Ensemble}
    {words rest : List String} {links : List ParentLink} (hl : s.catalog.registry.Leads target rest e words links)
    (hb : s.catalog.registry.bound? e.command = some e) (levels : Nat) (called : String) :
    dispatch (perform (levels + links.length)) e.command (called :: words) s =
      (dispatch (perform levels) target.command (called :: rest)).mapError
        (fun t err => err.noteWay t.catalog links) s := by
  induction hl generalizing called with
  | here =>
    simp only [mapError, Error.noteWay_nil, List.length_nil, Nat.add_zero]
    cases dispatch (perform levels) target.command (called :: rest) s <;> rfl
  | @part e below word words words' p h links hc hh hbelow hl ih =>
    obtain rfl := hw.command_of_bound? hbelow
    rw [dispatch_of_choice hb hc, hh, callNotedPart, List.length_cons, ← Nat.add_assoc,
      callPart_ensemble, mapError_congr_at _ (ih hbelow p.name), mapError_mapError]
    simp only [Error.noteWay_cons]
    exact mapError_congr_at _ (dispatch_called (hl.bound? hw hbelow) _ _ _)

/-- A command that is found bound to an ensemble does what the ensemble does. -/
theorem invoke_of_bound {root : String} (hw : s.catalog.Wf root) {name : String} {e : Ensemble}
    (hn : (s.catalog.commands.find? name).bind (s.catalog.registry.bound? ·.handle) = some e)
    (deeper : Deeper) (args : List String) :
    invoke deeper (name :: args) s =
      (Completion.normal <$> dispatch deeper e.command (name :: args)) s := by
  obtain ⟨a, ha, hb⟩ := Option.bind_eq_some_iff.1 hn
  obtain ⟨ham, rfl⟩ := (CommandTable.find?_eq_some_iff hw.commands).1 ha
  have hc := hw.registry.command_of_bound? hb
  have he := ((Registry.bound?_eq_some_iff hw.registry).1 hb).1
  rw [invoke_of_ensemble ha (hw.owner he ham hc).1, hc]

end Run

namespace Interpreter

variable {root : String} {i : Interpreter} {e : Ensemble}

theorem invoke_of_zero (hl : i.limit = 0) (argv : List String) :
    i.invoke argv = (.error (.of .nestedTooDeep), i) := by
  unfold invoke
  rw [hl]
  rfl

theorem invoke_of_bound (hw : i.state.catalog.Wf root) {name : String}
    (hn : (i.state.catalog.commands.find? name).bind (i.state.catalog.registry.bound? ·.handle) =
      some e) {levels : Nat} (hl : i.limit = levels + 1) (args : List String) :
    i.invoke (name :: args) =
      i.run (Run.dispatch (perform levels) e.command (name :: args)) := by
  have hcall : perform i.limit (.invoke (name :: args)) i.state =
      (Completion.normal <$> Run.dispatch (perform levels) e.command (name :: args)) i.state := by
    rw [hl]
    exact Run.invoke_of_bound hw hn _ args
  unfold invoke run
  rw [Run.bind_congr_at _ hcall]
  simp only [map_eq_pure_bind, bind_assoc, pure_bind, Completion.value, bind_pure]

/-- The call `argv` gets down to the ensemble `target`, past the parts `links`, with the words
`rest` left for it. -/
def GetsTo (i : Interpreter) (argv : List String) (links : List ParentLink) (target : Ensemble)
    (rest : List String) : Prop :=
  ∃ name words top, argv = name :: words ∧
    (i.state.catalog.commands.find? name).bind (i.state.catalog.registry.bound? ·.handle) =
      some top ∧
    i.state.catalog.registry.Leads target rest top words links ∧ links.length < i.limit

/-- What an ensemble refuses comes out of the call that gets down to it. -/
theorem GetsTo.invoke_of_refused (hw : i.state.catalog.Wf root) {argv rest : List String}
    {links : List ParentLink} (h : i.GetsTo argv links e rest) {cause : Cause}
    (hr : ∀ deeper called, Run.dispatch deeper e.command (called :: rest) i.state =
      .error (.of cause) i.state) :
    i.invoke argv = (.error ((Error.of cause).noteWay i.state.catalog links), i) := by
  obtain ⟨name, words, top, rfl, hn, hl, hlt⟩ := h
  obtain ⟨levels, hlevels⟩ := Nat.exists_eq_add_of_lt hlt
  have hlimit : i.limit = levels + links.length + 1 := by omega
  rw [invoke_of_bound hw hn hlimit]
  unfold run
  rw [Run.dispatch_of_leads hw.registry hl (Catalog.bound?_of_find? hw.registry hn)]
  unfold Run.mapError
  rw [hr]

end Interpreter

end Ensembles
