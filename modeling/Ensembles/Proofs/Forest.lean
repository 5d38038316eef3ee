import Ensembles.Registry
import Ensembles.Proofs.Keys
import Ensembles.Proofs.SortedParts

/-!
# The forest of ensembles

Ensembles hang in each other by two links: the table of one holds a part for the other
(`Ensemble.Holds`), and the other remembers where it hangs. `Registry.Wf` says that the two
agree and that the links lead up to older ensembles only. So the ensembles make a forest:

* `mem_subtree_iff`: the way down from a handle reaches exactly the ensembles `Under` it;
* `trail_spec`: the way up ends at a top-level ensemble, and the names on it lead back down.
-/

namespace Ensembles

/-! ## Well-formed registries -/

/-- The part `name` of the ensemble is the ensemble bound to `h`. -/
def Ensemble.Holds (e : Ensemble) (name : String) (h : Handle) : Prop :=
  ∃ usage, (name, usage, Handler.ensemble h) ∈ e.parts.contents

/-- A part that is an ensemble is held. -/
theorem Ensemble.holds_of_part (e : Ensemble) {p : Part Handler} {c : Handle}
    (hp : p ∈ e.parts.toList) (hh : p.handler = .ensemble c) : e.Holds p.name c :=
  ⟨p.usage, PartTable.mem_contents.2 ⟨p, hp, by rw [Part.content, hh]⟩⟩

/-- The private namespace of the ensemble `id`. -/
def homeOf (root : String) (id : EnsembleId) : String := root ++ "::" ++ id.number.repr

namespace Registry

/-- Ids tell ensembles apart, and so do commands, which lead to just the ids of the ensembles
that they are bound to. -/
structure Indexed (r : Registry) : Prop where
  /-- The ensembles stand youngest first. -/
  ids : r.ensembles.Pairwise fun x y => y.id.number < x.id.number
  keys : r.byCommand.Pairwise fun x y => x.1 ≠ y.1
  bound : ∀ h id, (h, id) ∈ r.byCommand ↔ ∃ e ∈ r.ensembles, e.command = h ∧ e.id = id

/-- The links between the ensembles agree, and each ensemble has a sorted table and a
namespace and command of its own. -/
structure Wf (r : Registry) : Prop extends Indexed r where
  issued : ∀ e ∈ r.ensembles, e.id.number ≤ r.issued
  sorted : ∀ e ∈ r.ensembles, e.parts.Sorted
  home : ∀ e ∈ r.ensembles, e.home = homeOf r.root e.id
  procedures : ∀ e ∈ r.ensembles, ∀ name usage p,
    (name, usage, Handler.procedure p) ∈ e.parts.contents →
      p.name = name ∧ p.home = e.home ∧ usage = some p.signature.usage
  hangs : ∀ e ∈ r.ensembles, ∀ link, e.parent = some link →
    ∃ p ∈ r.ensembles, p.id = link.ensemble ∧ p.id.number < e.id.number ∧
      p.Holds link.part e.command
  held : ∀ p ∈ r.ensembles, ∀ name h, p.Holds name h →
    ∃ e ∈ r.ensembles, e.command = h ∧ e.parent = some ⟨p.id, name⟩

variable {r : Registry} {x y e p : Ensemble} {h : Handle} {id : EnsembleId} {name : String}

theorem wf_empty (root : String) : (empty root).Wf where
  ids := .nil
  keys := .nil
  bound _ _ := iff_of_false nofun nofun
  issued := nofun
  sorted := nofun
  home := nofun
  procedures := nofun
  hangs := nofun
  held := nofun

/-! ### Lookups -/

theorem Indexed.ids_ne (hi : r.Indexed) : r.ensembles.Pairwise fun x y => x.id ≠ y.id :=
  hi.ids.imp fun hlt he => Nat.ne_of_gt hlt (congrArg EnsembleId.number he)

theorem Indexed.nodup (hi : r.Indexed) : r.ensembles.Nodup :=
  hi.ids_ne.imp fun hne he => hne (congrArg Ensemble.id he)

theorem Indexed.get?_eq_some_iff (hi : r.Indexed) :
    r.get? id = some e ↔ e ∈ r.ensembles ∧ e.id = id :=
  find?_key_eq_some_iff hi.ids_ne

theorem Indexed.eq_of_id (hi : r.Indexed) (hx : x ∈ r.ensembles) (hy : y ∈ r.ensembles)
    (hid : x.id = y.id) : x = y :=
  eq_of_key_eq hi.ids_ne hx hy hid

theorem Indexed.idOf?_eq_some_iff (hi : r.Indexed) :
    r.idOf? h = some id ↔ ∃ e ∈ r.ensembles, e.command = h ∧ e.id = id :=
  (lookup_eq_some_iff_mem hi.keys).trans (hi.bound h id)

theorem Indexed.bound?_eq_some_iff (hi : r.Indexed) :
    r.bound? h = some e ↔ e ∈ r.ensembles ∧ e.command = h := by
  unfold bound?
  simp only [Option.bind_eq_some_iff, hi.idOf?_eq_some_iff, hi.get?_eq_some_iff]
  constructor
  · rintro ⟨_, ⟨x, hx, hc, rfl⟩, he, hid⟩
    exact ⟨he, hi.eq_of_id he hx hid ▸ hc⟩
  · rintro ⟨he, hc⟩
    exact ⟨e.id, ⟨e, he, hc, rfl⟩, he, rfl⟩

theorem Indexed.eq_of_command (hi : r.Indexed) (hx : x ∈ r.ensembles) (hy : y ∈ r.ensembles)
    (hc : x.command = y.command) : x = y :=
  Option.some.inj ((hi.bound?_eq_some_iff.2 ⟨hx, hc⟩).symm.trans
    (hi.bound?_eq_some_iff.2 ⟨hy, rfl⟩))

theorem idOf?_of_bound? (hb : r.bound? h = some e) : r.idOf? h = some e.id := by
  obtain ⟨id, hi, hg⟩ := Option.bind_eq_some_iff.1 hb
  have hid : e.id = id := by simpa using List.find?_some hg
  rwa [hid]

/-- The map from commands to ids finds what a search among the ensembles would. -/
theorem Indexed.idOf?_eq (hi : r.Indexed) (h : Handle) : r.idOf? h = (r.bound? h).map (·.id) := by
  refine Option.ext fun id => ?_
  simp only [hi.idOf?_eq_some_iff, Option.map_eq_some_iff, hi.bound?_eq_some_iff, and_assoc]

theorem Wf.commands (hw : r.Wf) : r.ensembles.Pairwise fun x y => x.command ≠ y.command :=
  hw.nodup.imp_of_mem fun hx hy hne hc => hne (hw.eq_of_command hx hy hc)

theorem get?_eq_some_iff (hw : r.Wf) : r.get? id = some e ↔ e ∈ r.ensembles ∧ e.id = id :=
  hw.toIndexed.get?_eq_some_iff

theorem bound?_eq_some_iff (hw : r.Wf) :
    r.bound? h = some e ↔ e ∈ r.ensembles ∧ e.command = h :=
  hw.toIndexed.bound?_eq_some_iff

/-- What a table holds knows that it hangs there. -/
theorem Wf.parent_of_holds (hw : r.Wf) (hp : p ∈ r.ensembles) (he : e ∈ r.ensembles)
    (hh : p.Holds name e.command) : e.parent = some ⟨p.id, name⟩ := by
  obtain ⟨c, hc, hcc, hl⟩ := hw.held p hp name e.command hh
  rwa [hw.eq_of_command hc he hcc] at hl

/-- What a table holds is younger. -/
theorem Wf.lt_of_holds (hw : r.Wf) (hp : p ∈ r.ensembles) (he : e ∈ r.ensembles)
    (hh : p.Holds name e.command) : p.id.number < e.id.number := by
  obtain ⟨q, hq, hid, hlt, -⟩ := hw.hangs e he _ (hw.parent_of_holds hp he hh)
  rwa [hid] at hlt

end Registry

theorem Registry.privateName_congr {r r' : Registry} (h : r.root = r'.root) (id : EnsembleId)
    (name : String) : r.privateName id name = r'.privateName id name := by
  rw [privateName, privateName, h]

/-- A private name tells the ensemble and the part: the number of the ensemble ends where the
colons start. -/
theorem Registry.privateName_inj {r : Registry} {id id' : EnsembleId} {name name' : String}
    (h : r.privateName id name = r.privateName id' name') : id = id' ∧ name = name' := by
  have hdigits (n : Nat) (cs : List Char) :
      (Nat.toDigits 10 n ++ ':' :: cs).takeWhile Char.isDigit = Nat.toDigits 10 n := by
    have hn (d : Char) (hd : d ∈ Nat.toDigits 10 n) : d.isDigit = true :=
      Nat.isDigit_of_mem_toDigits (by decide) (by decide) hd
    rw [List.takeWhile_append_of_pos hn, List.takeWhile_cons_of_neg (by decide), List.append_nil]
  have hl := congrArg String.toList h
  simp only [privateName, String.toList_append, List.append_assoc, List.append_cancel_left_eq,
    Nat.toList_repr] at hl
  have hn := (hdigits _ _).symm.trans ((congrArg _ hl).trans (hdigits _ _))
  rw [hn, List.append_cancel_left_eq, List.append_cancel_left_eq] at hl
  refine ⟨?_, String.toList_inj.1 hl⟩
  have hid : id.number = id'.number := by
    rw [← Nat.ofDigitChars_ten_toDigits (n := id.number), hn, Nat.ofDigitChars_ten_toDigits]
  exact congrArg EnsembleId.mk hid

/-! ## The way down -/

/-- The ensemble is bound to `h` or hangs, at any depth, in the one that is. -/
inductive Under (l : List Ensemble) (h : Handle) : Ensemble → Prop where
  | self {e : Ensemble} : e ∈ l → e.command = h → Under l h e
  | part {p e : Ensemble} {name : String} :
    Under l h p → p.Holds name e.command → e ∈ l → Under l h e

namespace Under

variable {l l' : List Ensemble} {h : Handle} {x y e : Ensemble} {name : String}

theorem mem (hu : Under l h x) : x ∈ l := by
  cases hu with
  | self hm => exact hm
  | part _ _ hm => exact hm

theorem mono (hl : ∀ x ∈ l, x ∈ l') (hu : Under l h x) : Under l' h x := by
  induction hu with
  | self hm hc => exact .self (hl _ hm) hc
  | part _ hh hm ih => exact .part ih hh (hl _ hm)

/-- Below a part of an ensemble is below the ensemble. -/
theorem of_holds (hm : e ∈ l) (hh : e.Holds name h) (hu : Under l h x) :
    Under l e.command x := by
  induction hu with
  | self hx hc => exact .part (.self hm rfl) (hc ▸ hh) hx
  | part _ hp hx ih => exact .part ih hp hx

end Under

/-- The ensembles that a part of this handler is and has below it; `f` gives those of a
command. -/
def Handler.ensembles (f : Handle → List Ensemble) : Handler → List Ensemble
  | ensemble child => f child
  | native _ | procedure _ => []

/-- The natives that go with a part of this handler; `f` gives those of a command. -/
def Handler.freed (f : Handle → List Hosted) : Handler → List Hosted
  | ensemble child => f child
  | native n => [n]
  | procedure _ => []

namespace Registry

/-- The ensemble bound to `h` and all ensembles below it, each before those below it;
the ensembles to search are given oldest first. -/
def descend : List Ensemble → Handle → List Ensemble
  | [], _ => []
  | e :: younger, h =>
    if e.command = h then
      e :: e.parts.toList.flatMap fun p => p.handler.ensembles (descend younger)
    else descend younger h

/-- The natives of the ensemble bound to `h` and of all ensembles below it, in table
order, those of a nested ensemble at the place of its part. -/
def descendNatives : List Ensemble → Handle → List Hosted
  | [], _ => []
  | e :: younger, h =>
    if e.command = h then
      e.parts.toList.flatMap fun p => p.handler.freed (descendNatives younger)
    else descendNatives younger h

/-- The ensemble bound to `h` and all ensembles below it. -/
def subtree (r : Registry) (h : Handle) : List Ensemble :=
  descend r.ensembles.reverse h

/-- The natives of the ensemble bound to `h` and of all ensembles below it, in the order of
the tables. -/
def subtreeNatives (r : Registry) (h : Handle) : List Hosted :=
  descendNatives r.ensembles.reverse h

/-- What the search for the ensembles below relies on, for the ensembles that it has yet to
go through, oldest first. -/
structure Ordered (l : List Ensemble) : Prop where
  ids : l.Pairwise fun x y => x.id.number < y.id.number
  commands : l.Pairwise fun x y => x.command ≠ y.command
  younger : ∀ x ∈ l, ∀ y ∈ l, ∀ name, x.Holds name y.command → x.id.number < y.id.number

theorem Ordered.suffix {l l' : List Ensemble} (hl : Ordered l) (hs : l' <:+ l) : Ordered l' where
  ids := hl.ids.sublist hs.sublist
  commands := hl.commands.sublist hs.sublist
  younger _ hx _ hy := hl.younger _ (hs.subset hx) _ (hs.subset hy)

theorem Ordered.tail {e : Ensemble} {l : List Ensemble} (hl : Ordered (e :: l)) : Ordered l :=
  hl.suffix (List.suffix_cons e l)

theorem Wf.ordered {r : Registry} (hw : r.Wf) : Ordered r.ensembles.reverse where
  ids := List.pairwise_reverse.2 hw.ids
  commands := List.pairwise_reverse.2 (hw.commands.imp Ne.symm)
  younger _ hx _ hy _ hh := hw.lt_of_holds (List.mem_reverse.1 hx) (List.mem_reverse.1 hy) hh

theorem mem_children {e x : Ensemble} {f : Handle → List Ensemble} :
    x ∈ e.parts.toList.flatMap (fun p => p.handler.ensembles f) ↔
      ∃ name child, e.Holds name child ∧ x ∈ f child := by
  rw [List.mem_flatMap]
  constructor
  · rintro ⟨p, hp, hx⟩
    cases hh : p.handler with
    | ensemble child =>
      rw [hh] at hx
      exact ⟨p.name, child, e.holds_of_part hp hh, hx⟩
    | native n =>
      rw [hh] at hx
      cases hx
    | procedure q =>
      rw [hh] at hx
      cases hx
  · rintro ⟨name, child, ⟨usage, hm⟩, hx⟩
    obtain ⟨p, hp, hc⟩ := PartTable.mem_contents.1 hm
    refine ⟨p, hp, ?_⟩
    rw [show p.handler = .ensemble child from congrArg (·.2.2) hc]
    exact hx

variable {r : Registry} {l : List Ensemble} {h : Handle} {x y e p : Ensemble} {name : String}

theorem under_of_mem_descend (hx : x ∈ descend l h) : Under l h x := by
  induction l generalizing h with
  | nil => cases hx
  | cons e l ih =>
    rw [descend] at hx
    split at hx
    · rename_i hc
      rcases List.mem_cons.1 hx with rfl | hx
      · exact .self (List.mem_cons_self ..) hc
      · obtain ⟨name, child, hh, hx⟩ := mem_children.1 hx
        subst hc
        exact .of_holds (List.mem_cons_self ..) hh
          ((ih hx).mono fun _ => List.mem_cons_of_mem _)
    · exact (ih hx).mono fun _ => List.mem_cons_of_mem _

theorem mem_descend_self (hl : Ordered l) (hx : x ∈ l) : x ∈ descend l x.command := by
  induction l with
  | nil => cases hx
  | cons e l ih =>
    rw [descend]
    rcases List.mem_cons.1 hx with rfl | hx
    · rw [if_pos rfl]
      exact List.mem_cons_self ..
    · rw [if_neg ((List.pairwise_cons.1 hl.commands).1 x hx)]
      exact ih hl.tail hx

/-- What is found is followed by all that hangs in it: that is younger, so it has yet to be
gone through. -/
theorem mem_descend_of_holds (hl : Ordered l) (hx : x ∈ descend l h) (hy : y ∈ l)
    (hh : x.Holds name y.command) : y ∈ descend l h := by
  induction l generalizing h with
  | nil => cases hx
  | cons e l ih =>
    have hxy := hl.younger x (under_of_mem_descend hx).mem y hy name hh
    -- The head is the oldest that is left, and `y` is younger than `x`.
    have hyl (hxl : x = e ∨ x ∈ l) : y ∈ l := by
      have hle : e.id.number ≤ x.id.number := by
        rcases hxl with rfl | hxl
        · exact Nat.le_refl _
        · exact Nat.le_of_lt ((List.pairwise_cons.1 hl.ids).1 x hxl)
      rcases List.mem_cons.1 hy with rfl | hy
      · omega
      · exact hy
    rw [descend] at hx ⊢
    split at hx
    · rename_i hc
      rw [if_pos hc]
      refine List.mem_cons_of_mem _ (mem_children.2 ?_)
      rcases List.mem_cons.1 hx with rfl | hx
      · exact ⟨name, y.command, hh, mem_descend_self hl.tail (hyl (.inl rfl))⟩
      · obtain ⟨name', child, hc', hx⟩ := mem_children.1 hx
        have hxl := (under_of_mem_descend hx).mem
        exact ⟨name', child, hc', ih hl.tail hx (hyl (.inr hxl))⟩
    · rename_i hc
      rw [if_neg hc]
      have hxl := (under_of_mem_descend hx).mem
      exact ih hl.tail hx (hyl (.inr hxl))

theorem mem_descend_iff (hl : Ordered l) : x ∈ descend l h ↔ Under l h x := by
  refine ⟨under_of_mem_descend, fun hu => ?_⟩
  induction hu with
  | self hm hc => exact hc ▸ mem_descend_self hl hm
  | part _ hh hm ih => exact mem_descend_of_holds hl ih hm hh

/-- What is below an ensemble is not older. -/
theorem Wf.le_of_under (hw : r.Wf) (he : e ∈ r.ensembles)
    (hu : Under r.ensembles e.command x) : e.id.number ≤ x.id.number := by
  induction hu with
  | self hx hc => exact hw.eq_of_command hx he hc ▸ Nat.le_refl _
  | part hp hh hx ih => exact Nat.le_trans ih (Nat.le_of_lt (hw.lt_of_holds hp.mem hx hh))

/-- An ensemble does not hang in one below it. -/
theorem Wf.not_under_of_holds (hw : r.Wf) (hp : p ∈ r.ensembles) (he : e ∈ r.ensembles)
    {name : String} (hh : p.Holds name e.command) : ¬ Under r.ensembles e.command p :=
  fun hu => Nat.not_lt_of_le (hw.le_of_under he hu) (hw.lt_of_holds hp he hh)

/-- The subtree of a handle is all that is under it. -/
theorem mem_subtree_iff {r : Registry} (hw : r.Wf) :
    x ∈ r.subtree h ↔ Under r.ensembles h x := by
  rw [subtree, mem_descend_iff hw.ordered]
  have hm (x : Ensemble) : x ∈ r.ensembles.reverse ↔ x ∈ r.ensembles := List.mem_reverse
  exact ⟨.mono fun x => (hm x).1, .mono fun x => (hm x).2⟩

/-- Of the ensembles, oldest first, the younger ones stand further on. -/
theorem Wf.mem_of_suffix (hw : r.Wf) (hl : l <:+ r.ensembles.reverse) (hx : x ∈ l)
    (hy : y ∈ r.ensembles) (hlt : x.id.number < y.id.number) : y ∈ l := by
  obtain ⟨before, hb⟩ := hl
  have hids := hw.ordered.ids
  rw [← hb, List.pairwise_append] at hids
  rw [← List.mem_reverse, ← hb] at hy
  rcases List.mem_append.1 hy with hy | hy
  · have := hids.2.2 y hy x hx
    omega
  · exact hy

/-- An ensemble that is a part is younger than what it hangs in, so the way down has yet to come
to it. -/
theorem Wf.exists_child (hw : r.Wf) (hl : x :: l <:+ r.ensembles.reverse) {p : Part Handler}
    (hp : p ∈ x.parts.toList) (hh : p.handler = .ensemble h) :
    ∃ y ∈ l, y.command = h ∧ y.parent = some ⟨x.id, p.name⟩ := by
  have hx : x ∈ r.ensembles := List.mem_reverse.1 (hl.subset (List.mem_cons_self ..))
  obtain ⟨y, hy, rfl, hpar⟩ := hw.held x hx p.name h (x.holds_of_part hp hh)
  have hlt := hw.lt_of_holds hx hy (x.holds_of_part hp hh)
  refine ⟨y, ?_, rfl, hpar⟩
  rcases List.mem_cons.1 (hw.mem_of_suffix hl (List.mem_cons_self ..) hy hlt) with rfl | hyl
  · exact absurd hlt (Nat.lt_irrefl _)
  · exact hyl

/-- Induction on the way down. `P l e` is about the ensemble `e` where the way has yet to come to
those in `l`. It has to hold of an ensemble that is come to if it does of those that hang in it,
and to stay true where the way passes one by. -/
theorem Wf.descend_induct (hw : r.Wf) {P : List Ensemble → Ensemble → Prop}
    (here : ∀ x l, x :: l <:+ r.ensembles.reverse →
      (∀ p ∈ x.parts.toList, ∀ h, p.handler = .ensemble h → ∃ y ∈ r.ensembles,
        y.command = h ∧ y.parent = some ⟨x.id, p.name⟩ ∧ P l y) → P (x :: l) x)
    (past : ∀ x l y, x.command ≠ y.command → P l y → P (x :: l) y)
    (hl : l <:+ r.ensembles.reverse) (he : e ∈ l) : P l e := by
  induction l generalizing e with
  | nil => cases he
  | cons x l ih =>
    have hmem {y : Ensemble} (hy : y ∈ x :: l) : y ∈ r.ensembles :=
      List.mem_reverse.1 (hl.subset hy)
    have hll : l <:+ r.ensembles.reverse := (List.suffix_cons x l).trans hl
    by_cases hc : x.command = e.command
    · obtain rfl : x = e := hw.eq_of_command (hmem (List.mem_cons_self ..)) (hmem he) hc
      refine here x l hl fun p hp h hh => ?_
      obtain ⟨y, hy, hyc, hpar⟩ := hw.exists_child hl hp hh
      exact ⟨y, hmem (List.mem_cons_of_mem _ hy), hyc, hpar, ih hll hy⟩
    · rcases List.mem_cons.1 he with rfl | hel
      · exact absurd rfl hc
      · exact past x l e hc (ih hll hel)

end Registry

/-! ## The way up -/

/-- The parts of the names given lead down from `top` to an ensemble. -/
inductive Path (l : List Ensemble) (top : Ensemble) : List String → Ensemble → Prop where
  | self : top ∈ l → Path l top [] top
  | part {names : List String} {p e : Ensemble} {name : String} :
    Path l top names p → p.Holds name e.command → e ∈ l → Path l top (names ++ [name]) e

theorem Path.under {l : List Ensemble} {top e : Ensemble} {names : List String}
    (hp : Path l top names e) : Under l top.command e := by
  induction hp with
  | self hm => exact .self hm rfl
  | part _ hh hm ih => exact .part ih hh hm

theorem Path.top_mem {l : List Ensemble} {top e : Ensemble} {names : List String}
    (hp : Path l top names e) : top ∈ l := by
  induction hp with
  | self hm => exact hm
  | part _ _ _ ih => exact ih

namespace Registry

variable {r : Registry}

/-- The search for the way up finds the parent of an ensemble among those that it has yet to
go through. -/
theorem climb_spec (hw : r.Wf) {l : List Ensemble} (hl : l <:+ r.ensembles) {e : Ensemble}
    (he : e ∈ l) (below : List String) :
    ∃ top names, climb below l e.id = some (top, names ++ below) ∧ top.parent = none ∧
      Path r.ensembles top names e := by
  induction l generalizing e below with
  | nil => cases he
  | cons x l ih =>
    rw [climb]
    by_cases hx : x.id = e.id
    · have hxe : x = e := hw.eq_of_id (hl.subset (List.mem_cons_self ..)) (hl.subset he) hx
      subst hxe
      rw [if_pos rfl]
      cases hp : x.parent with
      | none => exact ⟨x, [], rfl, hp, .self (hl.subset he)⟩
      | some link =>
        obtain ⟨p, hpm, hid, hlt, hh⟩ := hw.hangs x (hl.subset he) link hp
        -- Older ensembles stand further on, so the parent is not among those passed.
        have hpl : p ∈ l := by
          obtain ⟨before, hb⟩ := hl
          have hids := hw.ids
          rw [← hb, List.pairwise_append] at hids
          rw [← hb] at hpm
          rcases List.mem_append.1 hpm with hpm | hpm
          · have := hids.2.2 p hpm x (List.mem_cons_self ..)
            omega
          · rcases List.mem_cons.1 hpm with rfl | hpm
            · omega
            · exact hpm
        obtain ⟨top, names, hc, ht, hpath⟩ :=
          ih ((List.suffix_cons x l).trans hl) hpl (link.part :: below)
        refine ⟨top, names ++ [link.part], ?_, ht, .part hpath hh (hl.subset he)⟩
        rw [hid] at hc
        rw [List.append_assoc]
        exact hc
    · rw [if_neg hx]
      rcases List.mem_cons.1 he with rfl | he
      · exact absurd rfl hx
      · exact ih ((List.suffix_cons x l).trans hl) he below

/-- Unless it is the one bound to the handle, an ensemble below a handle hangs in another one
below it. -/
theorem Wf.under_of_parent (hw : r.Wf) {p y : Ensemble} {h : Handle} {name : String}
    (hp : p ∈ r.ensembles) (hu : Under r.ensembles h y)
    (hc : y.command ≠ h) (hl : y.parent = some ⟨p.id, name⟩) : Under r.ensembles h p := by
  cases hu with
  | self _ hy => exact absurd hy hc
  | @part q _ n hq hh hy =>
    have hqp : q.id = p.id := by
      have := (hw.parent_of_holds hq.mem hy hh).symm.trans hl
      exact congrArg ParentLink.ensemble (Option.some.inj this)
    rwa [← hw.eq_of_id hq.mem hp hqp]

/-- Only one top-level ensemble is above an ensemble. -/
theorem Wf.eq_top (hw : r.Wf) {e top x : Ensemble} {names : List String} (he : e ∈ r.ensembles)
    (hep : e.parent = none) (hu : Under r.ensembles e.command x) (hp : Path r.ensembles top names x)
    (ht : top.parent = none) : top = e := by
  induction hp with
  | self hm =>
    cases hu with
    | self _ hc => exact hw.eq_of_command hm he hc
    | part hq hh _ =>
      rw [hw.parent_of_holds hq.mem hm hh] at ht
      cases ht
  | @part _ q y name hq hh hm ih =>
    have hl := hw.parent_of_holds hq.under.mem hm hh
    refine ih (hw.under_of_parent hq.under.mem hu (fun hc => ?_) hl)
    rw [hw.eq_of_command hm he hc, hep] at hl
    cases hl

/-- The way up from an ensemble ends at a top-level ensemble, from which the parts on the way
lead back. -/
theorem trail_spec (hw : r.Wf) {e : Ensemble} (he : e ∈ r.ensembles) :
    ∃ top names, r.trail e.id = some (top, names) ∧ top.parent = none ∧
      Path r.ensembles top names e := by
  obtain ⟨top, names, hc, ht, hp⟩ := climb_spec hw (List.suffix_refl _) he []
  rw [List.append_nil] at hc
  exact ⟨top, names, hc, ht, hp⟩

end Registry

end Ensembles
