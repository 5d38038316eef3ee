import Ensembles.Proofs.Quoting
import Ensembles.Signature
import Mathlib.Data.List.DropRight
import Mathlib.Data.List.Forall2

/-!
# Formal and actual arguments

A signature is a list of lists: each formal is written as the list of its name and its fallback,
and the formals as a list of these. What is written reads back if the names are simple, and no text
gives a signature with other names (`Signature.written_signatures_read_back`).

Actual arguments are given to the formals in order. A formal with a fallback can go without only if
there is none to follow, so it takes an actual argument from one behind it that has no fallback: how
many have to be given is told by the place of the last formal without a fallback
(`Signature.required`), not by their number. `Signature.arguments_are_bound` says when arguments fit
and which values the formals have then.
-/

namespace Ensembles

open ListText (merge split)

/-! ## Written signatures -/

namespace Formal

/-- The name is not empty and has no double colon. -/
def IsSimple (f : Formal) : Prop := f.name ≠ "" ∧ ¬ [':', ':'] <:+: f.name.toList

instance : DecidablePred IsSimple := fun _ => inferInstanceAs (Decidable (_ ∧ ¬ _))

/-- The list of the name and the fallback, if there is one. -/
def written (f : Formal) : String := merge (f.name :: f.fallback.toList)

end Formal

/-- The list of the written formals. -/
def Signature.written (s : Signature) : String := merge (s.formals.map Formal.written)

theorem hasDoubleColon_iff (cs : List Char) : hasDoubleColon cs = true ↔ [':', ':'] <:+: cs := by
  fun_induction hasDoubleColon cs with
  | case1 => simp
  | case2 cs => exact iff_of_true rfl ⟨[], cs, rfl⟩
  | case3 c cs hn ih =>
    have hnot : ¬ [':', ':'] <+: c :: cs := by
      rintro ⟨t, ht⟩
      cases ht
      exact hn t rfl rfl
    rw [ih, List.infix_cons_iff, or_iff_right hnot]

namespace Formal

variable {procedure element name : String} {fallback : Option String} {f : Formal}

theorem named_eq_ok_iff :
    named procedure name fallback = .ok f ↔ f = ⟨name, fallback⟩ ∧ f.IsSimple := by
  unfold named
  constructor
  · intro h
    split at h
    · cases h
    split at h
    · cases h
    rename_i hn hc
    cases h
    exact ⟨rfl, hn, fun hi => hc ((hasDoubleColon_iff _).2 hi)⟩
  · rintro ⟨rfl, hn, hc⟩
    rw [if_neg hn, if_neg (mt (hasDoubleColon_iff _).1 hc)]

/-- A text is read as a formal if it is a list of its name and its fallback, and the name is
simple. -/
theorem parse_eq_ok_iff :
    parse procedure element = .ok f ↔
      split element = .ok (f.name :: f.fallback.toList) ∧ f.IsSimple := by
  unfold parse
  cases split element with
  | error e => exact iff_of_false nofun fun h => nomatch h.1
  | ok fields =>
    simp only [Except.mapError, bind, Except.bind, Except.ok.injEq]
    match fields with
    | [] => exact iff_of_false nofun fun h => nomatch h.1
    | [name] => rw [named_eq_ok_iff]; obtain ⟨_, _ | _⟩ := f <;> simp [eq_comm]
    | [name, fallback] => rw [named_eq_ok_iff]; obtain ⟨_, _ | _⟩ := f <;> simp [eq_comm]
    | _ :: _ :: _ :: _ => obtain ⟨_, _ | _⟩ := f <;> simp

theorem parse_written_iff : parse procedure f.written = .ok f ↔ f.IsSimple := by
  rw [parse_eq_ok_iff, written, split_merge, and_iff_right rfl]

end Formal

/-- Where each entry succeeds, so does the whole list, and only there. -/
theorem mapM_eq_ok_iff {ε α β : Type} {g : α → Except ε β} {l : List α} {l' : List β} :
    l.mapM g = .ok l' ↔ List.Forall₂ (fun x y => g x = .ok y) l l' := by
  induction l generalizing l' with
  | nil =>
    rw [List.mapM_nil, List.forall₂_nil_left_iff]
    exact ⟨fun h => (Except.ok.inj h).symm, fun h => congrArg Except.ok h.symm⟩
  | cons x l ih =>
    rw [List.mapM_cons, List.forall₂_cons_left_iff]
    simp only [bind, Except.bind, ← ih]
    cases g x with
    | error e => exact iff_of_false nofun fun ⟨_, _, h, _⟩ => nomatch h
    | ok y =>
      cases l.mapM g with
      | error e => exact iff_of_false nofun fun ⟨_, _, _, h, _⟩ => nomatch h
      | ok ys =>
        constructor
        · rintro ⟨⟩
          exact ⟨y, ys, rfl, rfl, rfl⟩
        · rintro ⟨_, _, ⟨⟩, ⟨⟩, rfl⟩
          rfl

namespace Signature

variable {text procedure : String} {s : Signature}

theorem parse_eq_ok_iff : parse text procedure = .ok s ↔
    ∃ elements, split text = .ok elements ∧
      List.Forall₂ (fun element f => Formal.parse procedure element = .ok f) elements
        s.formals := by
  unfold parse
  cases split text with
  | error e => exact iff_of_false nofun fun ⟨_, h, _⟩ => nomatch h
  | ok elements =>
    simp only [Except.mapError, Bind.bind, Except.bind, Except.ok.injEq, exists_eq_left',
      ← mapM_eq_ok_iff]
    cases elements.mapM (Formal.parse procedure) with
    | error e => exact iff_of_false nofun nofun
    | ok formals => exact ⟨fun h => by cases h; rfl, fun h => by cases h; rfl⟩

theorem parse_written_iff :
    parse s.written procedure = .ok s ↔ ∀ f ∈ s.formals, f.IsSimple := by
  simp only [parse_eq_ok_iff, written, split_merge, Except.ok.injEq, exists_eq_left',
    List.forall₂_map_left_iff, List.forall₂_same, Formal.parse_written_iff]

theorem isSimple_of_parse (h : parse text procedure = .ok s) : ∀ f ∈ s.formals, f.IsSimple := by
  obtain ⟨elements, -, hall⟩ := parse_eq_ok_iff.1 h
  generalize s.formals = formals at hall
  induction hall with
  | nil => exact List.forall_mem_nil _
  | cons hf _ ih => exact List.forall_mem_cons.2 ⟨(Formal.parse_eq_ok_iff.1 hf).2, ih⟩

theorem isVariadic_iff :
    s.isVariadic = true ↔ ∃ f, s.formals.getLast? = some f ∧ f.name = "args" := by
  unfold isVariadic
  cases s.formals.getLast? with
  | none => simp
  | some f => simp

/-- A written signature reads back if and only if its names are simple, and it is variadic if the
last one is `args`. Every text that is read as a signature gives one with simple names, which can be
written and read again. -/
theorem written_signatures_read_back (s : Signature) (procedure : String) :
    (parse s.written procedure = .ok s ↔ ∀ f ∈ s.formals, f.IsSimple) ∧
    (s.isVariadic = true ↔ ∃ f, s.formals.getLast? = some f ∧ f.name = "args") ∧
    ∀ text procedure', parse text procedure' = .ok s →
      (∀ f ∈ s.formals, f.IsSimple) ∧ parse s.written procedure = .ok s := by
  refine ⟨parse_written_iff, isVariadic_iff, fun text procedure' h => ?_⟩
  have hsimple := isSimple_of_parse h
  exact ⟨hsimple, parse_written_iff.2 hsimple⟩

/-- A name with a blank and a brace, a fallback that is empty and one that looks like a list. -/
theorem written_signatures_read_back_odd_names :
    let s : Signature := ⟨[⟨"a \x7b", none⟩, ⟨"b", some ""⟩, ⟨"args", some "x \x7by z\x7d"⟩]⟩
    s.written = "\x7ba\\ \\\x7b\x7d \x7bb \x7b\x7d\x7d \x7bargs \x7bx \x7by z\x7d\x7d\x7d" ∧
      parse s.written "p" = .ok s ∧ s.isVariadic = true := by
  intro s
  obtain ⟨hread, hvariadic, -⟩ := written_signatures_read_back s "p"
  exact ⟨by decide +kernel, hread.2 (by decide +kernel), hvariadic.2 ⟨_, rfl, rfl⟩⟩

end Signature

/-! ## Actual arguments -/

namespace Signature

variable {s : Signature} {formals : List Formal} {actuals rest : List String}
  {bound : List (String × String)} {n : Nat}

/-- The place, counted from 1, of the last formal without a fallback, or 0 if each has one. -/
def required (formals : List Formal) : Nat :=
  (formals.rdropWhile (·.fallback.isSome)).length

theorem required_le_iff :
    required formals ≤ n ↔ ∀ f ∈ formals.drop n, f.fallback.isSome = true := by
  induction formals using List.reverseRecOn with
  | nil => simp [required, List.rdropWhile_nil]
  | append_singleton formals f ih =>
    unfold required at ih ⊢
    rw [List.rdropWhile_concat]
    by_cases hf : f.fallback.isSome = true
    · rw [if_pos hf, ih, List.drop_append, List.forall_mem_append, iff_self_and]
      intro _ g hg
      rwa [List.mem_singleton.1 (List.mem_of_mem_drop hg)]
    · rw [if_neg hf]
      refine ⟨fun hn => ?_, fun h => Nat.le_of_not_lt fun hn => hf (h f ?_)⟩
      · rw [List.drop_eq_nil_of_le hn]
        exact List.forall_mem_nil _
      · rw [List.length_append, List.length_singleton, Nat.lt_succ_iff] at hn
        rw [List.drop_append_of_le_length hn]
        exact List.mem_append_right _ (List.mem_singleton_self f)

theorem bindFixed_cons (f : Formal) :
    bindFixed (f :: formals) actuals =
      ((actuals[0]?.or f.fallback).bind fun v =>
        (bindFixed formals actuals.tail).map fun r => ((f.name, v) :: r.1, r.2)) := by
  cases actuals with
  | cons v vs => rfl
  | nil =>
    rw [bindFixed]
    cases f.fallback <;> rfl

theorem isSome_bindFixed_iff : (bindFixed formals actuals).isSome = true ↔
    ∀ f ∈ formals.drop actuals.length, f.fallback.isSome = true := by
  induction formals generalizing actuals with
  | nil => simp [bindFixed]
  | cons f formals ih =>
    rw [bindFixed_cons]
    cases actuals with
    | cons v vs => simpa using ih
    | nil => cases hf : f.fallback <;> simp [hf, ih]

theorem of_bindFixed (h : bindFixed formals actuals = some (bound, rest)) :
    bound.map Prod.fst = formals.map Formal.name ∧ rest = actuals.drop formals.length ∧
      ∀ (i : Nat) (f : Formal), formals[i]? = some f →
        ∃ v : String, actuals[i]?.or f.fallback = some v ∧ bound[i]? = some (f.name, v) := by
  induction formals generalizing actuals bound with
  | nil =>
    cases h
    exact ⟨rfl, rfl, nofun⟩
  | cons f formals ih =>
    rw [bindFixed_cons, Option.bind_eq_some_iff] at h
    obtain ⟨v, hv, h⟩ := h
    obtain ⟨⟨bound, rest⟩, hb, ⟨⟩⟩ := Option.map_eq_some_iff.1 h
    obtain ⟨hnames, hrest, hvalues⟩ := ih hb
    refine ⟨congrArg (f.name :: ·) hnames, ?_, fun i g hg => ?_⟩
    · rw [hrest, List.drop_tail, List.length_cons]
    · cases i with
      | zero => cases hg; exact ⟨v, hv, rfl⟩
      | succ i =>
        obtain ⟨w, hw, hi⟩ := hvalues i g hg
        exact ⟨w, by rwa [List.getElem?_tail] at hw, hi⟩

/-- The formals, in order, with the values that the actual arguments give them. -/
structure Binds (s : Signature) (actuals : List String) (bound : List (String × String)) :
    Prop where
  names : bound.map Prod.fst = s.formals.map Formal.name
  /-- Its actual argument if there is one, its fallback otherwise. -/
  values : ∀ (i : Nat) (f : Formal), s.fixed[i]? = some f →
    ∃ v : String, actuals[i]?.or f.fallback = some v ∧ bound[i]? = some (f.name, v)
  /-- The actual arguments that are left are read back from the last value. -/
  collected : s.isVariadic = true → ∃ v : String, bound.getLast? = some ("args", v) ∧
    split v = .ok (actuals.drop s.fixed.length)

theorem names_formals : s.formals.map Formal.name =
    s.fixed.map Formal.name ++ if s.isVariadic then ["args"] else [] := by
  unfold fixed
  by_cases hs : s.isVariadic = true
  · obtain ⟨f, hf, hname⟩ := isVariadic_iff.1 hs
    obtain ⟨formals, hformals⟩ := List.getLast?_eq_some_iff.1 hf
    rw [if_pos hs, if_pos hs, hformals, List.dropLast_concat, List.map_append, List.map_singleton,
      hname]
  · rw [if_neg hs, if_neg hs, List.append_nil]

theorem isSome_bind_iff : (s.bind actuals).isSome = true ↔
    (bindFixed s.fixed actuals).isSome = true ∧
      (s.isVariadic = true ∨ actuals.length ≤ s.fixed.length) := by
  unfold bind
  split
  · rename_i h
    rw [h]
    exact iff_of_false nofun fun h => nomatch h.1
  · rename_i bound rest h
    obtain ⟨-, rfl, -⟩ := of_bindFixed h
    rw [h, ← List.drop_eq_nil_iff]
    split_ifs <;> simp [*]

theorem binds_of_bind (h : s.bind actuals = some bound) : s.Binds actuals bound := by
  unfold bind at h
  split at h
  · cases h
  rename_i fixed rest hfixed
  obtain ⟨hnames, rfl, hvalues⟩ := of_bindFixed hfixed
  by_cases hs : s.isVariadic = true
  · rw [if_pos hs] at h
    cases h
    refine ⟨?_, fun i f hf => ?_, fun _ => ⟨_, List.getLast?_concat, split_merge _⟩⟩
    · rw [names_formals, if_pos hs, List.map_append, hnames]
      rfl
    · obtain ⟨v, hv, hi⟩ := hvalues i f hf
      rw [List.getElem?_append_left (List.getElem?_eq_some_iff.1 hi).1]
      exact ⟨v, hv, hi⟩
  · rw [if_neg hs] at h
    split at h <;> cases h
    refine ⟨?_, hvalues, fun h => absurd h hs⟩
    rw [names_formals, if_neg hs, List.append_nil, hnames]

/-- Actual arguments fit if each formal without a fallback has one, and none is left unless the last
formal takes them. Then the formals have these values. -/
theorem arguments_are_bound (s : Signature) (actuals : List String) :
    ((s.bind actuals).isSome = true ↔ required s.fixed ≤ actuals.length ∧
      (s.isVariadic = true ∨ actuals.length ≤ s.fixed.length)) ∧
    ∀ bound, s.bind actuals = some bound → s.Binds actuals bound := by
  rw [isSome_bind_iff, isSome_bindFixed_iff, required_le_iff]
  exact ⟨Iff.rfl, fun bound => binds_of_bind⟩

/-- The fallback of `a` is never used, as `b` has none, nor is that of `args`. -/
theorem arguments_are_bound_around_fallbacks :
    let s : Signature := ⟨[⟨"a", some "1"⟩, ⟨"b", none⟩, ⟨"c", some "2"⟩, ⟨"args", some "3"⟩]⟩
    s.bind ["p"] = none ∧ s.Binds ["p", "q"] [("a", "p"), ("b", "q"), ("c", "2"), ("args", "")] ∧
      s.Binds ["p", "q", "r", "s t", ""]
        [("a", "p"), ("b", "q"), ("c", "r"), ("args", "\x7bs t\x7d \x7b\x7d")] := by
  intro s
  refine ⟨?_, (arguments_are_bound s _).2 _ (by decide +kernel),
    (arguments_are_bound s _).2 _ (by decide +kernel)⟩
  have hfew : ¬ required s.fixed ≤ ["p"].length := by decide +kernel
  exact Option.not_isSome_iff_eq_none.1 fun h => hfew ((arguments_are_bound s ["p"]).1.1 h).1

end Signature

end Ensembles
