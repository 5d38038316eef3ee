import Ensembles.Native.Stock
import Ensembles.Proofs.Lookups
import Ensembles.Proofs.ShownPaths

/-!
# Listings

The parts of an ensemble are listed for a host that asks by path or by command, and in the errors
of calls without a word, of calls with a word for which there is no part and of lookups.
`Catalog.Lists` says what such a text consists of, and `Interpreter.ShowsOnly` that all these
places show the same one. To get to the same place, a path is followed by full names and a call by
abbreviations; `Catalog.Wf.leads_of_resolveFrom` is how the two meet.

Only the lookup of an ambiguous word has a listing of its own, of all parts whose names the word
starts. The internal part, which no other listing has a line for, is not left out of that one
(`Interpreter.HidesInternalPart`, `Interpreter.internal_part_is_shown`).
-/

namespace Ensembles

namespace Catalog

variable {root : String} {c : Catalog} {e target : Ensemble} {text : String}

/-! ## Lines of parts -/

/-- The text has an indented line for each part of the ensemble but the catch-all part and the
internal part, in the order of the bytes of their names, and a note at the end if there is a
catch-all part. -/
def Lists (c : Catalog) (e : Ensemble) (text : String) : Prop :=
  ∃ shown : List (Part Handler),
    (∀ p, p ∈ shown ↔ p ∈ e.parts.toList ∧ p.name ≠ catchAll ∧ p.name ≠ internalPart) ∧
    (shown.Pairwise fun p q => p.name.toUTF8.data.toList < q.name.toUTF8.data.toList) ∧
    text = "\n".intercalate (shown.map fun p => "  " ++ c.usageLine e.id p) ++
      if ∃ p ∈ e.parts.toList, p.name = catchAll then
        "\n...and others described on the man page"
      else ""

theorem Wf.lists_usage (hw : c.Wf root) (he : e ∈ c.registry.ensembles) :
    c.Lists e (c.usage e.id) := by
  have hget : c.registry.get? e.id = some e :=
    (Registry.get?_eq_some_iff hw.registry).2 ⟨he, rfl⟩
  have hsorted := hw.registry.sorted e he
  have hopen : (e.parts.find? catchAll).isSome ↔ ∃ p ∈ e.parts.toList, p.name = catchAll := by
    simp only [Option.isSome_iff_exists, PartTable.find?_eq_some_iff hsorted]
  refine ⟨e.parts.toList.filter isListed, fun p => ?_, ?_, ?_⟩
  · simp only [List.mem_filter, isListed, ne_eq, decide_not, Bool.and_eq_true, Bool.not_eq_true',
      decide_eq_false_iff_not]
  · exact (hsorted.pairwise_name.imp fun h => (lt_iff_bytes_lt _ _).1 h).filter _
  · simp only [usage, hget, usageLines, hopen]

/-- The text has no line but of parts of the ensemble that are not the internal part. -/
def Hides (c : Catalog) (e : Ensemble) (text : String) : Prop :=
  ∃ ps : List (Part Handler), (∀ p ∈ ps, p ∈ e.parts.toList ∧ p.name ≠ internalPart) ∧
    (text = c.usageLines e.id ps ∨
      text = c.usageLines e.id ps ++ "\n...and others described on the man page")

theorem Lists.hides (h : c.Lists e text) : c.Hides e text := by
  obtain ⟨shown, hm, -, rfl⟩ := h
  refine ⟨shown, fun p hp => ⟨((hm p).1 hp).1, ((hm p).1 hp).2.2⟩, ?_⟩
  split
  · exact .inr rfl
  · exact .inl (String.append_empty)

theorem usageLine_prefix (c : Catalog) (id : EnsembleId) (p : Part Handler)
    (ps : List (Part Handler)) :
    ("  " ++ c.usageLine id p).toList <+: (c.usageLines id (p :: ps)).toList := by
  rw [usageLines, String.toList_intercalate, List.map_cons, List.map_cons]
  cases ps with
  | nil => simp only [List.map_nil, List.intercalate_singleton, List.prefix_rfl]
  | cons q qs =>
    rw [List.map_cons, List.map_cons, List.intercalate_cons_cons, List.append_assoc]
    exact List.prefix_append _ _

/-- Where there is a line at all, the first one is of such a part. -/
theorem Hides.first_line (h : c.Hides e text) :
    text = "" ∨ text = "\n...and others described on the man page" ∨
      ∃ p ∈ e.parts.toList, p.name ≠ internalPart ∧
        ("  " ++ c.usageLine e.id p).toList <+: text.toList := by
  obtain ⟨ps, hps, ht⟩ := h
  cases ps with
  | nil =>
    rw [usageLines, List.map_nil, String.intercalate_nil, String.empty_append] at ht
    exact ht.imp_right .inl
  | cons p ps =>
    obtain ⟨hp, hn⟩ := hps p List.mem_cons_self
    refine .inr (.inr ⟨p, hp, hn, ?_⟩)
    obtain rfl | rfl := ht
    · exact c.usageLine_prefix e.id p ps
    · refine (c.usageLine_prefix e.id p ps).trans ?_
      rw [String.toList_append]
      exact List.prefix_append _ _

/-- What is listed for a command is what is listed for the ensemble it is bound to. -/
theorem usageOfCommand_of_find? {name : String}
    (hn : (c.commands.find? name).bind (c.registry.bound? ·.handle) = some e) :
    c.usageOfCommand name = some (c.usage e.id) := by
  obtain ⟨a, ha, hb⟩ := Option.bind_eq_some_iff.1 hn
  simp only [usageOfCommand, CommandTable.handleOf?_of_find? ha, Option.bind_some,
    Registry.idOf?_of_bound? hb, Option.map_some]

/-! ## Paths and calls -/

/-- The full names that lead down in a path do so in a call, unless one of them is empty. -/
theorem Wf.leads_of_resolveFrom (hw : c.Wf root) (ht : c.registry.Tabled)
    (he : c.registry.get? e.id = some e) (hm : c.registry.get? target.id = some target)
    {walked names : List String} (hr : c.resolveFrom walked e.id names = .ok target.id)
    (hn : "" ∉ names) :
    ∃ links : List ParentLink, links.length = names.length ∧
      ∀ rest, c.registry.Leads target rest e (names ++ rest) links := by
  induction names generalizing walked e with
  | nil =>
    rw [Except.ok.inj hr, hm] at he
    cases he
    exact ⟨[], rfl, fun rest => .here⟩
  | cons name names ih =>
    obtain ⟨hname, hnames⟩ := not_or.1 (List.mem_cons.not.1 hn)
    obtain ⟨p, h, below, hf, hh, hb, hr⟩ := hw.below_of_resolveFrom he hr
    obtain ⟨hp, rfl⟩ := PartTable.find?_mem hf
    have hem := ((Registry.get?_eq_some_iff hw.registry).1 he).1
    have hc (rest : List String) : e.choice p.name (names ++ rest) = some (p, names ++ rest) :=
      Ensemble.choice_of_found (((ht e hem).resolve_full_name hp).2 (Ne.symm hname)) _
    obtain ⟨links, hl, hleads⟩ := ih (hw.registry.get?_of_bound? hb) hr hnames
    exact ⟨⟨e.id, p.name⟩ :: links, congrArg Nat.succ hl,
      fun rest => .part (hc rest) hh hb (hleads rest)⟩

end Catalog

namespace Interpreter

variable {root : String} {i : Interpreter}

/-! ## One listing -/

/-- Whatever lists the parts of the ensemble `e` shows the text `text`. -/
structure ShowsOnly (i : Interpreter) (e : Ensemble) (text : String) : Prop where
  lists : i.state.catalog.Lists e text
  /-- It is shown for the path of the ensemble, however the words of the path are quoted. -/
  written : ∀ path, ListText.split path = ListText.split (i.state.catalog.path e.id) →
    i.usage path = some text
  /-- It is shown for any other path that leads there. -/
  atPath : ∀ path, i.state.catalog.resolveText path = .ok e.id → i.usage path = some text
  ofCommand : ∃ a, i.state.catalog.commands.get? e.command = some a ∧
    i.usageOfCommand a.name = some text
  /-- The words of a path to the ensemble get a call there, unless there is an empty one among
  them or the interpreter has too few levels. -/
  called : ∀ words, i.state.catalog.resolve words = .ok e.id → "" ∉ words.tail →
    words.length ≤ i.limit → ∃ links, ∀ rest, i.GetsTo (words ++ rest) links e rest
  /-- It is in the error of a call that gets to the ensemble without a word left. -/
  missing : ∀ argv links, i.GetsTo argv links e [] →
    i.invoke argv =
      (.error ((Error.of (.missingPart text)).noteWay i.state.catalog links), i)
  /-- It is in the error of a call that gets there with a word for which there is no part. -/
  unknown : ∀ argv links word args, i.GetsTo argv links e (word :: args) →
    e.choice word args = none →
    i.invoke argv =
      (.error ((Error.of (.unknownPart word text)).noteWay i.state.catalog links), i)
  /-- Wherever it is called, the ensemble has no other errors of its own. -/
  own : ∀ deeper argv cause s, Run.dispatch deeper e.command argv i.state = .error (.of cause) s →
    cause = .missingPart text ∨ ∃ word, cause = .unknownPart word text
  lookup : ∀ path word, i.state.catalog.resolveText path = .ok e.id →
    e.parts.resolve word = .absent → i.part path word = .error (.of (.unknownPart word text))

/-- The words of a path to an ensemble get a call there. -/
theorem getsTo_of_resolve (hi : Reachable root i) {e : Ensemble}
    (he : i.state.catalog.registry.get? e.id = some e) {words : List String}
    (hr : i.state.catalog.resolve words = .ok e.id) (hn : "" ∉ words.tail)
    (hl : words.length ≤ i.limit) :
    ∃ links, ∀ rest, i.GetsTo (words ++ rest) links e rest := by
  have hw := hi.wf
  obtain ⟨name, names, top, rfl, htop, hr⟩ := hw.top_of_resolve hr
  obtain ⟨links, hlinks, hleads⟩ := hw.leads_of_resolveFrom hi.tables
    (hw.registry.get?_of_bound? (Catalog.bound?_of_find? hw.registry htop)) he hr hn
  have hlt : links.length < i.limit := by
    rw [hlinks]
    exact hl
  exact ⟨links, fun rest => ⟨name, names ++ rest, top, rfl, htop, hleads rest, hlt⟩⟩

/-- In a reachable interpreter there is one text for an ensemble that all listings of its parts
show. -/
theorem shows_one_listing (hi : Reachable root i) {id : EnsembleId} {e : Ensemble}
    (he : i.state.catalog.registry.get? id = some e) : ∃ text, i.ShowsOnly e text := by
  have hw := hi.wf
  obtain ⟨hem, rfl⟩ := (Registry.get?_eq_some_iff hw.registry).1 he
  have hb : i.state.catalog.registry.bound? e.command = some e :=
    (Registry.bound?_eq_some_iff hw.registry).2 ⟨hem, rfl⟩
  have hpath (path : String) (hp : i.state.catalog.resolveText path = .ok e.id) :
      i.usage path = some (i.state.catalog.usage e.id) := by
    simp only [usage, Catalog.usageAt, hp]
  refine ⟨i.state.catalog.usage e.id, ?_⟩
  constructor
  case lists => exact hw.lists_usage hem
  case written =>
    intro path hs
    obtain ⟨words, -, hwords, hr⟩ := hw.resolve_path hem
    refine hpath path ?_
    simp only [Catalog.resolveText, hs, hwords, split_merge, hr]
  case atPath => exact hpath
  case ofCommand =>
    obtain ⟨a, ha, hh, -⟩ := hw.owned e hem
    refine ⟨a, (CommandTable.get?_eq_some_iff hw.commands).2 ⟨ha, hh⟩, ?_⟩
    have hf := (CommandTable.find?_eq_some_iff hw.commands).2 ⟨ha, rfl⟩
    exact Catalog.usageOfCommand_of_find? (Option.bind_eq_some_iff.2 ⟨a, hf, hh ▸ hb⟩)
  case called => exact fun words hr hn hl => getsTo_of_resolve hi he hr hn hl
  case missing =>
    exact fun argv links h =>
      h.invoke_of_refused hw fun deeper called => Run.dispatch_of_missing hb called
  case unknown =>
    exact fun argv links word args h hc =>
      h.invoke_of_refused hw fun deeper called => Run.dispatch_of_refused hb hc called
  case own =>
    intro deeper argv cause s h
    obtain hc | ⟨word, -, -, -, -, hc⟩ := Run.own_error hb h
    · exact .inl hc
    · exact .inr ⟨word, hc⟩
  case lookup =>
    intro path word hp hr
    rw [part_of_resolveText hp he, hr]

/-- So it is for a nested ensemble with a catch-all part, which a call gets to by an abbreviation
and by the private command. -/
theorem shows_one_listing_nested :
    let i := ((((((new "::r" 4).create "e").2.create "e in").2.addPart "e in" "b c" (some "x")
      ⟨none, Program.echo⟩).2.addPart "e in" "a" none ⟨none, Program.echo⟩).2.addPart "e in"
        "@error" none ⟨none, Program.echo⟩).2
    let text := "  e in a\n  e in \x7bb c\x7d x\n...and others described on the man page"
    (∃ e, i.state.catalog.registry.get? ⟨2⟩ = some e ∧ ∃ text, i.ShowsOnly e text) ∧
    i.usage "e \x7bin\x7d" = some text ∧
    i.usageOfCommand "::r::subensembles::1::in" = some text ∧
    (i.invoke ["e", "i"]).1 = .error ⟨.missingPart text, [.partOf "in" "e"]⟩ ∧
    (i.invoke ["::r::subensembles::1::in"]).1 = .error ⟨.missingPart text, []⟩ := by
  intro i text
  have hi : Reachable "::r" i :=
    .addPart _ _ _ _ (.addPart _ _ _ _ (.addPart _ _ _ _ (.create _ (.create _ (.new 4)))))
  have hsome : (i.state.catalog.registry.get? ⟨2⟩).isSome = true := by decide +kernel
  obtain ⟨e, he⟩ := Option.isSome_iff_exists.1 hsome
  exact ⟨⟨e, he, shows_one_listing hi he⟩, by decide +kernel, by decide +kernel, by decide +kernel,
    by decide +kernel⟩

end Interpreter

/-! ## The internal part -/

/-- The listing that an error shows, if it shows one. -/
def Cause.listing? : Cause → Option String
  | .ambiguousPart _ listing | .unknownPart _ listing | .missingPart listing => some listing
  | _ => none

/-- The word starts the name of the internal part of the ensemble. -/
def Ensemble.Reveals (e : Ensemble) (word : String) : Prop :=
  ∃ p ∈ e.parts.toList, p.name = internalPart ∧ p.startsWith word = true

/-- An ambiguous lookup lists all parts whose names the word starts. -/
theorem PartTable.Wf.ambiguous_parts {α : Type} {t : PartTable α} (hw : t.Wf) {text : String}
    {ps : List (Part α)} (hr : t.resolve text = .ambiguous ps) :
    ps = t.toList.filter (·.startsWith text) := by
  have hn : text ≠ "" := by
    rintro rfl
    cases hr
  rw [hw.resolve_eq_scan, scan_eq_ambiguous_iff hn] at hr
  exact hr.2.2

namespace Interpreter

variable {root : String} {i : Interpreter}

/-- The listings of the parts of the ensemble `e` have no line of the internal part, except the
listing of a lookup with an ambiguous word that starts the name of that part. -/
structure HidesInternalPart (i : Interpreter) (e : Ensemble) : Prop where
  atPath : ∀ path text, i.state.catalog.resolveText path = .ok e.id →
    i.usage path = some text → i.state.catalog.Hides e text
  ofCommand : ∀ name text,
    (i.state.catalog.commands.find? name).bind (i.state.catalog.registry.bound? ·.handle) =
      some e →
    i.usageOfCommand name = some text → i.state.catalog.Hides e text
  call : ∀ deeper argv cause s text,
    Run.dispatch deeper e.command argv i.state = .error (.of cause) s →
    cause.listing? = some text → i.state.catalog.Hides e text
  lookup : ∀ path word err text, i.state.catalog.resolveText path = .ok e.id →
    i.part path word = .error err → err.cause.listing? = some text →
    i.state.catalog.Hides e text ∨ e.Reveals word ∧
      err = .of (.ambiguousPart word
        (i.state.catalog.usageLines e.id (e.parts.toList.filter (·.startsWith word))))

/-- In a reachable interpreter no listing has a line of the internal part, except that of a lookup
with an ambiguous word that starts its name. -/
theorem internal_part_is_hidden (hi : Reachable root i) {id : EnsembleId} {e : Ensemble}
    (he : i.state.catalog.registry.get? id = some e) : i.HidesInternalPart e := by
  have hw := hi.wf
  obtain ⟨hem, rfl⟩ := (Registry.get?_eq_some_iff hw.registry).1 he
  have hb : i.state.catalog.registry.bound? e.command = some e :=
    (Registry.bound?_eq_some_iff hw.registry).2 ⟨hem, rfl⟩
  have husage : i.state.catalog.Hides e (i.state.catalog.usage e.id) := (hw.lists_usage hem).hides
  constructor
  case atPath =>
    intro path text hp ht
    simp only [usage, Catalog.usageAt, hp, Option.some.injEq] at ht
    exact ht ▸ husage
  case ofCommand =>
    intro name text hn ht
    rw [usageOfCommand, Catalog.usageOfCommand_of_find? hn, Option.some.injEq] at ht
    exact ht ▸ husage
  case call =>
    intro deeper argv cause s text h ht
    obtain rfl | ⟨word, -, -, -, -, rfl⟩ := Run.own_error hb h <;>
      exact Option.some.inj ht ▸ husage
  case lookup =>
    intro path word err text hp h ht
    have hpart := part_of_resolveText hp he word
    rw [h] at hpart
    cases hr : e.parts.resolve word with
    | found p =>
      rw [hr] at hpart
      cases hpart
    | absent =>
      rw [hr] at hpart
      cases hpart
      exact .inl (Option.some.inj ht ▸ husage)
    | ambiguous ps =>
      rw [hr] at hpart
      cases hpart
      obtain rfl := (hi.tables e hem).ambiguous_parts hr
      by_cases hv : e.Reveals word
      · exact .inr ⟨hv, rfl⟩
      · obtain rfl := Option.some.inj ht
        refine .inl ⟨_, fun p hp => ?_, .inl rfl⟩
        obtain ⟨hpm, hps⟩ := List.mem_filter.1 hp
        exact ⟨hpm, fun hn => hv ⟨p, hpm, hn, hps⟩⟩

/-- So it is where the internal part is the only one that the word starts, and is found, and where
it is one of several parts of which the word starts others. -/
theorem internal_part_is_hidden_found :
    let i := (((((new "::r" 4).create "e").2.addPart "e" internalPart none
      ⟨none, Program.echo⟩).2.addPart "e" "ab" none ⟨none, Program.echo⟩).2.addPart "e" "ac" none
        ⟨none, Program.echo⟩).2
    (∃ e, i.state.catalog.registry.get? ⟨1⟩ = some e ∧ i.HidesInternalPart e) ∧
    i.usage "e" = some "  e ab\n  e ac" ∧
    (["@", "a", "x"].map fun word => match i.part "e" word with
      | .ok _ => none
      | .error err => err.cause.listing?) =
      [none, some "  e ab\n  e ac", some "  e ab\n  e ac"] := by
  intro i
  have hi : Reachable "::r" i :=
    .addPart _ _ _ _ (.addPart _ _ _ _ (.addPart _ _ _ _ (.create _ (.new 4))))
  have hsome : (i.state.catalog.registry.get? ⟨1⟩).isSome = true := by decide +kernel
  obtain ⟨e, he⟩ := Option.isSome_iff_exists.1 hsome
  exact ⟨⟨e, he, internal_part_is_hidden hi he⟩, by decide +kernel, by decide +kernel⟩

/-- A word that starts the name of the internal part and another one is ambiguous, and the lookup of
it lists the internal part. -/
theorem internal_part_is_shown :
    let script := "ensemble e \x7bpart @itcl-builtin_info \x7b\x7d \x7b\x7d ; " ++
      "part @itcl-x \x7b\x7d \x7b\x7d\x7d"
    let i := ((new "::r" 4).eval script).2
    let listing := "  e @itcl-builtin_info\n  e @itcl-x"
    Reachable "::r" i ∧
    ∃ e, i.state.catalog.registry.get? ⟨1⟩ = some e ∧
      i.state.catalog.resolveText "e" = .ok e.id ∧
      i.part "e" "@i" = .error (.of (.ambiguousPart "@i" listing)) ∧
      ¬ i.state.catalog.Hides e listing := by
  intro script i listing
  obtain ⟨hother, hpath, hpart⟩ :
      (i.state.catalog.registry.get? ⟨1⟩).map (fun e =>
        (e.id, (e.parts.toList.filter (·.name ≠ internalPart)).map
          (i.state.catalog.usageLine e.id))) = some (⟨1⟩, ["e @itcl-x"]) ∧
      i.state.catalog.resolveText "e" = .ok ⟨1⟩ ∧
      (match i.part "e" "@i" with | .ok _ => none | .error err => some err) =
        some (.of (.ambiguousPart "@i" listing)) := by
    decide +kernel
  obtain ⟨e, he, hlines⟩ := Option.map_eq_some_iff.1 hother
  obtain ⟨hid, hlines⟩ := Prod.mk.inj hlines
  refine ⟨.eval _ (.new 4), e, he, hid ▸ hpath, ?_, ?_⟩
  · split at hpart
    · cases hpart
    · rename_i err herr
      rw [herr, Option.some.inj hpart]
  · intro h
    obtain ht | ht | ⟨p, hp, hn, hfirst⟩ := h.first_line
    · exact absurd ht (by decide)
    · exact absurd ht (by decide)
    · have hline : i.state.catalog.usageLine e.id p = "e @itcl-x" :=
        List.mem_singleton.1
          (hlines ▸ List.mem_map_of_mem (List.mem_filter.2 ⟨hp, decide_eq_true hn⟩))
      rw [hline] at hfirst
      exact absurd hfirst (by decide)

end Interpreter

end Ensembles
