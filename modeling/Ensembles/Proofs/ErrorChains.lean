import Ensembles.Native.Stock
import Ensembles.Proofs.LastingPaths

/-!
# Chains of notes

A call that goes down through nested ensembles leaves a note on the way back for each part that it
passed, if the part at the bottom fails. The paths in the notes are read off the catalogue that the
part has left. They are the ones from before the call, since ensembles do not move, and so the notes
tell the way of the call: `Note.chain` writes them from the names of the parts, and
`Interpreter.errors_chain_up` says that the error consists of what the part came to and these notes.
-/

namespace Ensembles

open ListText (merge)

/-- The notes on the parts that a call passed, the innermost first. The first of `parts` is one of
the ensemble that `words` spell, each other one of the ensemble that is the part before it. -/
def Note.chain (words : List String) : (parts : List String) → List Note
  | [] => []
  | part :: parts => chain (words ++ [part]) parts ++ [.partOf part (merge words)]

@[simp]
theorem Note.length_chain (words parts : List String) :
    (chain words parts).length = parts.length := by
  induction parts generalizing words with
  | nil => rfl
  | cons part parts ih => simp [chain, ih]

theorem Error.noteWay_concat (c : Catalog) (links : List ParentLink) (l : ParentLink) (e : Error) :
    e.noteWay c (links ++ [l]) = (e.note (.partOf l.part (c.path l.ensemble))).noteWay c links := by
  simp [noteWay, note]

/-! ## The part at the bottom -/

theorem Ensemble.mem_of_choice {e : Ensemble} {word : String} {args args' : List String}
    {p : Part Handler} (hc : e.choice word args = some (p, args')) : p ∈ e.parts.toList := by
  unfold choice at hc
  split at hc
  · rename_i q hq
    cases hc
    exact PartTable.mem_of_resolve hq
  · obtain ⟨q, hq, ⟨⟩⟩ := Option.map_eq_some_iff.1 hc
    exact (PartTable.find?_mem hq).1

namespace Catalog

/-- A part is the ensemble that hangs in its place. -/
theorem Wf.handler_of_parent {root : String} {c : Catalog} (hw : c.Wf root) {x e : Ensemble}
    (hx : x ∈ c.registry.ensembles) {p : Part Handler} (hp : p ∈ x.parts.toList)
    (he : e ∈ c.registry.ensembles) (hl : e.parent = some ⟨x.id, p.name⟩) :
    p.handler = .ensemble e.command := by
  obtain ⟨y, hy, hid, -, usage, hm⟩ := hw.registry.hangs e he _ hl
  rw [hw.registry.eq_of_id hy hx hid] at hm
  obtain ⟨q, hq, hc⟩ := PartTable.mem_contents.1 hm
  obtain rfl := (hw.registry.sorted x hx).eq_of_name_eq hq hp (congrArg (·.1) hc)
  exact congrArg (·.2.2) hc

/-- The usage line of a procedure part is the words that spell the part, and its arguments. -/
theorem Wf.usageLine_of_procedure {root : String} {c : Catalog} (hw : c.Wf root) {e : Ensemble}
    (he : e ∈ c.registry.ensembles) {p : Part Handler} (hp : p ∈ e.parts.toList) {q : Procedure}
    (hq : p.handler = .procedure q) {words : List String} (hn : words ≠ [])
    (hpath : c.path e.id = merge words) :
    c.usageLine e.id p = merge (words ++ [p.name]) ++
      if q.signature.usage = "" then "" else " " ++ q.signature.usage := by
  have hm : (p.name, p.usage, Handler.procedure q) ∈ e.parts.contents :=
    PartTable.mem_contents.2 ⟨p, hp, by rw [Part.content, hq]⟩
  obtain ⟨-, -, husage⟩ := hw.registry.procedures e he _ _ _ hm
  have hsummary : argumentSummary p = q.signature.usage := by
    rw [argumentSummary, husage, hq]
    split
    · rename_i hh
      cases hh
    · rfl
  have hinvocation : c.invocation e.id p.name = merge (words ++ [p.name]) := by
    rw [invocation, if_neg (hpath ▸ merge_ne_empty hn), hpath, merge_concat hn]
  rw [usageLine, hsummary, hinvocation]
  split
  · rw [String.append_empty]
  · rw [String.append_assoc]

end Catalog

namespace Run

variable {root : String} {deeper : Deeper} {s t : State} {e : Ensemble} {p : Part Handler}
  {args : List String}

theorem becomes_of_callPart (hd : ∀ t, (deeper t).Steps) (hw : s.catalog.Wf root)
    (he : e ∈ s.catalog.registry.ensembles) (hp : p ∈ e.parts.toList) {err : Error}
    (h : callPart deeper e.id p.name p.handler args s = .error err t) :
    Catalog.Becomes root s.catalog t.catalog := by
  have hreaches : s.Reaches ((callPart deeper e.id p.name p.handler args).after s) :=
    reaches_callPart hd (fun _ hh => mem_natives_of_part he hp hh) ..
  rw [after_of_error h] at hreaches
  exact State.Later.becomes (.reaches hreaches) hw

/-- Arguments that do not fit the signature of a procedure are refused with the line that the
listing has for the part. -/
theorem callPart_of_unbound (deeper : Deeper) (hw : s.catalog.Wf root)
    (he : e ∈ s.catalog.registry.ensembles) (hp : p ∈ e.parts.toList) {q : Procedure}
    (hq : p.handler = .procedure q) (hb : q.signature.bind args = none) :
    callPart deeper e.id p.name p.handler args s =
      .error (.of (.wrongArguments (s.catalog.usageLine e.id p))) s := by
  have hget := (Registry.get?_eq_some_iff hw.registry).2 ⟨he, rfl⟩
  have hfind := (PartTable.find?_eq_some_iff (hw.registry.sorted e he)).2 ⟨hp, rfl⟩
  simp only [callPart, hq, hb, ask, Catalog.usageOf, hget, Option.bind_some, hfind]

end Run

/-! ## The notes on the way back -/

namespace Catalog

variable {root : String} {c c' : Catalog} {first top e : Ensemble} {words rest shown : List String}
  {links : List ParentLink}

/-- The words of a call lead down a path. -/
theorem Wf.path_of_leads (hw : c.Wf root) (hl : c.registry.Leads e rest top words links)
    (ht : top ∈ c.registry.ensembles) :
    Path c.registry.ensembles top (links.map (·.part)) e := by
  induction hl with
  | here => exact .self ht
  | @part x below _ _ _ p _ _ hc hh hb _ ih =>
    obtain ⟨hbelow, rfl⟩ := (Registry.bound?_eq_some_iff hw.registry).1 hb
    exact .cons ht (x.holds_of_part (x.mem_of_choice hc) hh) (ih hbelow)

/-- If the ensemble at the bottom is there later, so are all that the call passed, and the notes on
their parts are the chain of the names. -/
theorem Becomes.notes_of_leads (hb : Becomes root c c')
    (hl : c.registry.Leads e rest top words links) (hs : c.Spells first shown top)
    (hf : first.parent = none) {x : Ensemble} (hx : x ∈ c'.registry.ensembles) (hid : e.id = x.id)
    (part : String) (err : Error) : (∃ y ∈ c'.registry.ensembles, top.id = y.id) ∧
      err.noteWay c' (links ++ [⟨e.id, part⟩]) =
        ⟨err.cause, err.notes ++ Note.chain shown (links.map (·.part) ++ [part])⟩ := by
  have hpath {z y : Ensemble} {shown : List String} (hs : c.Spells first shown z)
      (hy : y ∈ c'.registry.ensembles) (hid : z.id = y.id) : c'.path z.id = merge shown := by
    rw [hb.path_eq hs.mem hy hid, hb.before.path_of_spells hs hf]
  induction hl generalizing shown with
  | here =>
    refine ⟨⟨x, hx, hid⟩, ?_⟩
    rw [List.nil_append, Error.noteWay_cons, Error.noteWay_nil, hpath hs hx hid]
    rfl
  | @part z below _ _ _ p _ links hc hh hbound _ ih =>
    obtain ⟨hbelow, rfl⟩ := (Registry.bound?_eq_some_iff hb.before.registry).1 hbound
    have hhold : z.Holds p.name below.command := z.holds_of_part (z.mem_of_choice hc) hh
    have hs' : c.Spells first (shown ++ [p.name]) below :=
      hs.append (.part (.self hs.mem) hhold hbelow)
    obtain ⟨⟨y, hy, hyid⟩, hnotes⟩ := ih hs'
    -- What hangs in an ensemble that is there no more is not there either.
    have hlink := hb.before.registry.parent_of_holds hs.mem hbelow hhold
    obtain ⟨q, hq, hqid, -⟩ := hb.after.registry.hangs y hy _
      ((hb.stays hbelow hy hyid).parent.symm.trans hlink)
    refine ⟨⟨q, hq, hqid.symm⟩, ?_⟩
    rw [List.cons_append, Error.noteWay_cons, hnotes, hpath hs hq hqid.symm, List.map_cons,
      List.cons_append, Note.chain, ← List.append_assoc]
    rfl

end Catalog

namespace Interpreter

variable {root : String} {i : Interpreter} {name word : String} {words args args' : List String}
  {top e : Ensemble} {links : List ParentLink} {p : Part Handler}

/-- A call comes to what the part at the bottom comes to, with notes on all parts on the way. -/
theorem invoke_of_leads (hw : i.state.catalog.Wf root)
    (hn : (i.state.catalog.commands.find? name).bind (i.state.catalog.registry.bound? ·.handle) =
      some top)
    (hl : i.state.catalog.registry.Leads e (word :: args) top words links)
    {levels : Nat} (hlimit : i.limit = levels + links.length + 1)
    (hc : e.choice word args = some (p, args')) :
    i.invoke (name :: words) =
      i.run ((Run.callPart (perform levels) e.id p.name p.handler args').mapError fun t err =>
        err.noteWay t.catalog (links ++ [⟨e.id, p.name⟩])) := by
  have hb := Catalog.bound?_of_find? hw.registry hn
  rw [invoke_of_bound hw hn hlimit]
  unfold run
  rw [Run.dispatch_of_leads hw.registry hl hb,
    Run.mapError_congr_at _ (Run.dispatch_of_choice (hl.bound? hw.registry hb) hc name),
    Run.callNotedPart, Run.mapError_mapError]
  simp only [Error.noteWay_concat]

/-- An error of the part that a call gets to comes out with the chain of notes on the way there. -/
theorem errors_chain_up (hi : Reachable root i)
    (hn : (i.state.catalog.commands.find? name).bind (i.state.catalog.registry.bound? ·.handle) =
      some top)
    (hl : i.state.catalog.registry.Leads e (word :: args) top words links)
    {levels : Nat} (hlimit : i.limit = levels + links.length + 1)
    (hc : e.choice word args = some (p, args')) :
    let parts := links.map (·.part) ++ [p.name]
    ∃ shown, (top.parent = none → shown = [name]) ∧ i.state.catalog.path top.id = merge shown ∧
      i.state.catalog.path e.id = merge (shown ++ links.map (·.part)) ∧
      (Note.chain shown parts).length = links.length + 1 ∧
      (∀ err t,
        Run.callPart (perform levels) e.id p.name p.handler args' i.state = .error err t →
        (t.catalog.registry.get? e.id).isSome = true →
        i.invoke (name :: words) =
          (.error ⟨err.cause, err.notes ++ Note.chain shown parts⟩, ⟨i.limit, t⟩)) ∧
      ∀ q, p.handler = .procedure q → q.signature.bind args' = none →
        i.invoke (name :: words) =
          (.error ⟨.wrongArguments (i.state.catalog.usageLine e.id p), Note.chain shown parts⟩, i) ∧
        i.state.catalog.usageLine e.id p = merge (shown ++ parts) ++
          if q.signature.usage = "" then "" else " " ++ q.signature.usage := by
  intro parts
  have hw := hi.wf
  obtain ⟨first, shown, hf, hs, hshown⟩ := hw.exists_spells_of_find? hn
  have hpath := hw.path_of_leads hl hs.mem
  have hspells := hs.append hpath
  have hchain (err : Error) (t : State)
      (h : Run.callPart (perform levels) e.id p.name p.handler args' i.state = .error err t)
      (ht : (t.catalog.registry.get? e.id).isSome = true) :
      i.invoke (name :: words) =
        (.error ⟨err.cause, err.notes ++ Note.chain shown parts⟩, ⟨i.limit, t⟩) := by
    have hb := Run.becomes_of_callPart (Run.steps_perform _) hw hpath.mem (e.mem_of_choice hc) h
    obtain ⟨x, hx⟩ := Option.isSome_iff_exists.1 ht
    obtain ⟨hxm, hid⟩ := (Registry.get?_eq_some_iff hb.after.registry).1 hx
    rw [invoke_of_leads hw hn hl hlimit hc, run, Run.mapError, h]
    simp only [(hb.notes_of_leads hl hs hf hxm hid.symm p.name err).2]
    rfl
  refine ⟨shown, hshown, hw.path_of_spells hs hf, hw.path_of_spells hspells hf,
    by simp [parts], hchain, fun q hq hbind => ?_⟩
  have hget := (Registry.get?_eq_some_iff hw.registry).2 ⟨hpath.mem, rfl⟩
  have hcall := Run.callPart_of_unbound (perform levels) hw hpath.mem (e.mem_of_choice hc) hq hbind
  have husage := hw.usageLine_of_procedure hpath.mem (e.mem_of_choice hc) hq hspells.ne_nil
    (hw.path_of_spells hspells hf)
  rw [List.append_assoc] at husage
  exact ⟨hchain _ _ hcall (Option.isSome_of_mem hget), husage⟩

/-- Abbreviations on the way to a native that makes an ensemble and fails, and to a procedure that
gets too few arguments. -/
theorem errors_chain_up_abbreviated :
    let i := (((new "::r" 4).eval ("ensemble \x7ba b\x7d \x7bensemble \x7bc d\x7d " ++
      "\x7bpart proc \x7bx \x7by 1\x7d\x7d \x7breturn 1\x7d\x7d\x7d")).2.addPart
      "\x7ba b\x7d \x7bc d\x7d" "fail" none
      ⟨none, fun _ => .create "z" fun _ => Program.fail "no" ["hint"]⟩).2
    (i.invoke ["a b", "c", "f", "x"]).1 = .error ⟨.user "no", [.host "hint",
      .partOf "fail" "\x7ba b\x7d \x7bc d\x7d", .partOf "c d" "\x7ba b\x7d"]⟩ ∧
    (i.invoke ["a b", "c", "p"]).1 = .error ⟨.wrongArguments "\x7ba b\x7d \x7bc d\x7d proc x ?y?",
      [.partOf "proc" "\x7ba b\x7d \x7bc d\x7d", .partOf "c d" "\x7ba b\x7d"]⟩ := by
  intro i
  have hi : Reachable "::r" i := .addPart _ _ _ _ (.eval _ (.new 4))
  have hlimit : i.limit = 4 := by decide +kernel
  let call (e : Ensemble) (p : Part Handler) (args : List String) :=
    Run.callPart (perform 2) e.id p.name p.handler args
  have hclosed : (((i.state.catalog.commands.find? "a b").bind
      (i.state.catalog.registry.bound? ·.handle)).bind fun top =>
      (i.state.catalog.registry.get? ⟨2⟩).bind fun e =>
        (top.choice "c" ["f", "x"]).bind fun c => (e.choice "f" ["x"]).map fun d =>
          (c.1.name, c.2, d.1.name, (call e d.1 d.2).outcome i.state, top.parent.isNone &&
            e.parent = some ⟨top.id, c.1.name⟩ &&
              (((call e d.1 d.2).after i.state).catalog.registry.get? e.id).isSome)) =
        some ("c d", ["f", "x"], "fail", .error ⟨.user "no", [.host "hint"]⟩, true) := by
    decide +kernel
  obtain ⟨top, hn, hclosed⟩ := Option.bind_eq_some_iff.1 hclosed
  obtain ⟨e, he, hclosed⟩ := Option.bind_eq_some_iff.1 hclosed
  obtain ⟨⟨q, rest⟩, hq, hclosed⟩ := Option.bind_eq_some_iff.1 hclosed
  obtain ⟨⟨p, args⟩, hp, hclosed⟩ := Option.map_eq_some_iff.1 hclosed
  simp only [Prod.mk.injEq, Bool.and_eq_true, decide_eq_true_eq] at hclosed
  obtain ⟨hqn, rfl, hpn, hfails, ⟨htop, hlink⟩, halive⟩ := hclosed
  have hem := (Registry.get?_eq_some_iff hi.wf.registry).1 he
  have hb := (Registry.bound?_eq_some_iff hi.wf.registry).2 ⟨hem.1, rfl⟩
  have htm := (hi.wf.spells_of_find? hn).mem
  have hh := hi.wf.handler_of_parent htm (top.mem_of_choice hq) hem.1 hlink
  have hl : i.state.catalog.registry.Leads e ("f" :: ["x"]) top ["c", "f", "x"]
      [⟨top.id, q.name⟩] := .part hq hh hb .here
  obtain ⟨shown, hshown, -, -, -, hchain, -⟩ := errors_chain_up hi hn hl hlimit hp
  obtain rfl := hshown (Option.isNone_iff_eq_none.1 htop)
  refine ⟨?_, by decide +kernel⟩
  have hcall := Run.conclude_outcome (call e p args) i.state
  rw [hfails] at hcall
  have hparts : [(⟨top.id, q.name⟩ : ParentLink)].map (·.part) ++ [p.name] = ["c d", "fail"] := by
    rw [hpn, List.map_singleton, hqn, List.singleton_append]
  have hnotes : Note.chain ["a b"] ["c d", "fail"] =
      [.partOf "fail" "\x7ba b\x7d \x7bc d\x7d", .partOf "c d" "\x7ba b\x7d"] := by
    decide +kernel
  rw [hchain _ _ hcall.symm halive, hparts, hnotes]
  rfl

end Interpreter

end Ensembles
