import Ensembles.Proofs.Limit
import Ensembles.Proofs.WrittenCommand

/-!
# A declaration in the place of a body

A single declaration may stand in the place of the body of an ensemble. Written as a list it is a
body with that one declaration, which reads back word for word (`Run.declareBody_merge`). So the two
ways to declare differ in the level of nesting that a body takes up, and in the notes on an error.
Within fewer levels a declaration fails for want of them or does the same, whatever natives there
are (`Run.matches_declare`), so only the notes are left unless the body fails for want of levels
(`Run.inline_agrees_body`).
-/

namespace Ensembles

open ListText (merge)

namespace Run

variable {α β γ : Type} {R : State → State → Prop} {cut : Error → Prop} {x y : Run α}

/-! ## Computations that match -/

theorem Matches.refl (x : Run α) : x.Matches Eq cut x := by
  rintro s _ rfl
  exact .inr ⟨rfl, rfl⟩

theorem Matches.bind {f g : α → Run β} (hx : x.Matches R cut y)
    (hf : ∀ a, (f a).Matches R cut (g a)) : (x >>= f).Matches R cut (y >>= g) := by
  intro s t h
  rw [outcome_bind, outcome_bind, after_bind, after_bind]
  obtain ⟨e, he, hcut⟩ | ⟨ho, ha⟩ := hx s t h
  · rw [he]
    exact .inl ⟨e, rfl, hcut⟩
  · rw [ho]
    cases y.outcome t with
    | ok a => exact hf a _ _ ha
    | error e => exact .inr ⟨rfl, ha⟩

theorem Matches.map (g : α → β) (hx : x.Matches Eq cut y) : (g <$> x).Matches Eq cut (g <$> y) := by
  rw [map_eq_pure_bind, map_eq_pure_bind]
  exact hx.bind fun a => .refl _

theorem Matches.mapError {f : Error → Error} (hx : x.Matches R cut y)
    (hf : ∀ e, cut e → cut (f e)) :
    (x.mapError fun _ => f).Matches R cut (y.mapError fun _ => f) := by
  intro s t h
  rw [outcome_mapError, outcome_mapError, after_mapError, after_mapError]
  obtain ⟨e, he, hcut⟩ | ⟨ho, ha⟩ := hx s t h
  · rw [he]
    exact .inl ⟨f e, rfl, hf e hcut⟩
  · rw [ho]
    exact .inr ⟨rfl, ha⟩

theorem Matches.forM {f g : γ → Run PUnit} (hf : ∀ c, (f c).Matches Eq cut (g c)) (l : List γ) :
    (l.forM f).Matches Eq cut (l.forM g) := by
  induction l with
  | nil => exact .refl _
  | cons c l ih => exact (hf c).bind fun _ => ih

/-! ## Declaring within fewer levels -/

section Declaring

variable {deeper deeper' : Deeper}
  (hd : ∀ id commands,
    (deeper (.body id commands)).Matches Eq cut (deeper' (.body id commands)))
include hd

theorem matches_declareBody (id : EnsembleId) (body : String) :
    (declareBody deeper id body).Matches Eq cut (declareBody deeper' id body) :=
  (Matches.refl (parse .escapes body)).bind fun commands => (hd id commands).map _

theorem matches_declareEnsemble (current : Option EnsembleId) (args : List String) :
    (declareEnsemble deeper current args).Matches Eq cut
      (declareEnsemble deeper' current args) := by
  fun_induction declareEnsemble deeper current args with
  | case1 => exact .refl _
  | case2 current name => exact .refl _
  | case3 current name body =>
    exact (Matches.refl (locate current name)).bind fun id => matches_declareBody hd id body
  | case4 current name keyword args hn ih =>
    rw [Run.declareEnsemble.eq_4 _ _ _ _ _ hn]
    refine (Matches.refl (locate current name)).bind fun id => ?_
    split
    · exact ih id
    · exact .refl _

theorem matches_declare (id : EnsembleId) (words : List String) :
    (declare deeper id words).Matches Eq cut (declare deeper' id words) := by
  cases words with
  | nil => exact .refl _
  | cons keyword args =>
    rw [declare, declare]
    split
    · exact matches_declareEnsemble hd (some id) args
    · exact .refl _

theorem matches_declareAll (hcut : ∀ e n, cut e → cut (e.note n)) (id : EnsembleId)
    (commands : List Command) :
    (declareAll deeper id commands).Matches Eq cut (declareAll deeper' id commands) :=
  .forM (fun _ => (matches_declare hd id _).mapError fun _ he => hcut _ _ (hcut _ _ he)) commands

end Declaring

/-- Within fewer levels a body fails for want of them, or it declares the same. -/
theorem matches_body {levels levels' : Nat} (hl : levels ≤ levels') (id : EnsembleId)
    (commands : List Command) :
    (perform levels (.body id commands)).Matches Eq Error.IsLimit
      (perform levels' (.body id commands)) := by
  induction levels generalizing levels' id commands with
  | zero => exact fun _ _ _ => .inl ⟨_, rfl, rfl⟩
  | succ levels ih =>
    obtain ⟨levels', rfl⟩ := Nat.exists_eq_add_of_le' hl
    have hd := ih (Nat.le_of_add_le_add_right hl)
    exact (matches_declareAll hd (fun _ _ he => he) id commands).bind fun _ => .refl _

/-! ## The two ways to declare -/

/-- A declaration of two words or more in the place of a body goes on in the ensemble. -/
theorem declareEnsemble_declare (deeper : Deeper) (current : Option EnsembleId)
    (name keyword arg : String) (args : List String) :
    declareEnsemble deeper current (name :: keyword :: arg :: args) =
      locate current name >>= fun id => declare deeper id (keyword :: arg :: args) := by
  rw [declareEnsemble]
  · rfl
  · intro h
    cases h

/-- For any state and at any place, an ensemble with a declaration of at least two words and the
ensemble with the body that is this declaration written as a list leave the same state, unless the
body form finds no level of nesting left. If the ensemble cannot be found or made, both fail with
the same error. Otherwise both succeed, or both fail; the body adds to the notes on the error one on
the written declaration and one on its line. -/
theorem inline_agrees_body (levels : Nat) (current : Option EnsembleId) (name keyword arg : String)
    (args : List String) (s : State)
    (h : ∀ e, (declareEnsemble (perform levels) current
      [name, merge (keyword :: arg :: args)]).outcome s = .error e → ¬ e.IsLimit) :
    let words := keyword :: arg :: args
    let inline := declareEnsemble (perform levels) current (name :: words)
    let body := declareEnsemble (perform levels) current [name, merge words]
    inline.after s = body.after s ∧
      match (locate current name).outcome s, inline.outcome s with
      | .error e, r => r = .error e ∧ body.outcome s = .error e
      | .ok _, .ok () => body.outcome s = .ok ()
      | .ok _, .error e =>
        body.outcome s =
          .error ((e.traced (.ofList (Text.trimEnd (merge words).toList))).note (.bodyLine 1)) := by
  intro words inline body
  have hinline : inline = locate current name >>= fun id => declare (perform levels) id words :=
    declareEnsemble_declare ..
  have hbody : body = locate current name >>= fun id =>
      declareBody (perform levels) id (merge words) := rfl
  have h : ∀ e, body.outcome s = .error e → ¬ e.IsLimit := h
  rw [hbody, outcome_bind] at h
  rw [hinline, hbody, outcome_bind, outcome_bind, after_bind, after_bind]
  cases hloc : (locate current name).outcome s with
  | error e => exact ⟨rfl, rfl, rfl⟩
  | ok id =>
    simp only [hloc] at h ⊢
    cases levels with
    | zero =>
      rw [declareBody_merge_zero] at h
      exact absurd rfl (h _ rfl)
    | succ levels =>
      rw [declareBody_merge, outcome_mapError] at h
      rw [declareBody_merge, outcome_mapError, after_mapError]
      have hd := matches_body (Nat.le_succ levels)
      obtain ⟨e, he, hlimit⟩ | ⟨ho, ha⟩ := matches_declare hd id words _ _ rfl
      · rw [he] at h
        have hnoted := h _ rfl
        exact absurd hlimit hnoted
      · rw [← ho, ← ha]
        refine ⟨rfl, ?_⟩
        cases (declare (perform levels) id words).outcome ((locate current name).after s) with
        | error e => rfl
        | ok _ => rfl

/-- A part with an argument without a name, in a nested ensemble, and a body with substitutions and
a backslash at its end. -/
theorem inline_agrees_body_nested :
    let s := (Interpreter.new "::r" 2).state
    let words := ["ensemble", "f", "part", "x", "{}", "return $a[b]\\"]
    let body := declareEnsemble (perform 2) none ["e", merge words]
    (∀ e, body.outcome s = .error e → ¬ e.IsLimit) ∧
      (declareEnsemble (perform 2) none ("e" :: words)).after s = body.after s ∧
      body.outcome s = .error
        ⟨.badSignature (.unnamedFormal "x"), [.executing (merge words), .bodyLine 1]⟩ := by
  intro s words body
  have hbody : body.outcome s = .error
      ⟨.badSignature (.unnamedFormal "x"), [.executing (merge words), .bodyLine 1]⟩ := by
    decide +kernel
  have hlimit : ∀ e, body.outcome s = .error e → ¬ e.IsLimit := by
    intro e he
    rw [hbody] at he
    cases he
    exact fun h => Cause.noConfusion h
  exact ⟨hlimit, (inline_agrees_body 2 none "e" "ensemble" "f" _ s hlimit).1, hbody⟩

end Run

end Ensembles
