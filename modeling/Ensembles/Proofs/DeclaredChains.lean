import Ensembles.Proofs.Atomicity
import Ensembles.Proofs.DeclaredDepth

/-!
# Chains of declarations

A chain declares an ensemble in an ensemble in an ensemble, each in the body of the one above
it or in the place of that body. It takes up a level of nesting for each body and none for the
other links (`Run.chains_declareEnsemble`), so the limit bounds the bodies of a chain and not how
deep it leads (`Interpreter.eval_chain`). A chain of bodies alone declares nested ensembles as
`Watch.bodies` asks for (`Interpreter.declaresInBodies_chain`).
-/

namespace Ensembles

/-- How a nested ensemble is declared: in the body of the one that it hangs in, or in the place
of the body. -/
inductive Spelling where
  | body
  | inline
deriving DecidableEq, Repr

/-- A nested ensemble in a chain: how it is declared, and its name. -/
abbrev Link := Spelling × String

/-- The arguments of `ensemble` that declare the ensemble `name` and, each in the one before,
the ensembles of the links. -/
def chain (name : String) : List Link → List String
  | [] => [name]
  | (.body, part) :: links => [name, ListText.merge ("ensemble" :: chain part links)]
  | (.inline, part) :: links => name :: "ensemble" :: chain part links

/-- The script that declares a chain. -/
def chainScript (name : String) (links : List Link) : String :=
  ListText.merge ("ensemble" :: chain name links)

/-- The number of ensembles that are declared in bodies. -/
def bodies (links : List Link) : Nat := links.countP (·.1 = .body)

theorem bodies_body (part : String) (links : List Link) :
    bodies ((.body, part) :: links) = bodies links + 1 :=
  List.countP_cons_of_pos rfl

theorem bodies_inline (part : String) (links : List Link) :
    bodies ((.inline, part) :: links) = bodies links :=
  List.countP_cons_of_neg nofun

theorem chain_eq_cons (name : String) (links : List Link) :
    ∃ rest, chain name links = name :: rest := by
  match links with
  | [] | (.body, _) :: _ | (.inline, _) :: _ => exact ⟨_, rfl⟩

/-! ## The ensembles of a chain -/

namespace Catalog

variable {root name part : String} {n d : Nat} {id : EnsembleId} {c : Catalog}

/-- The command `ensemble` is the builtin one, and `name` may become the name of a top-level
ensemble that no private name is in the way of. -/
structure Admits (c : Catalog) (name : String) : Prop where
  builtin : ∃ h, c.commands.find? "ensemble" = some ⟨h, "ensemble", .builtin .ensemble⟩
  named : name ≠ ""
  absent : c.commands.find? name = none
  apart : ∀ parent part, name ≠ c.registry.privateName parent part

theorem Admits.topLevel (ha : c.Admits name) : c.TopLevel name := by
  intro a e hf
  rw [ha.absent] at hf
  cases hf

/-- The ensemble `id` is the last of those that a chain has made so far, which all have numbers
above `n`: it lies `d` part names below the top-level ensemble `name`, and has no parts. -/
structure Tip (root name : String) (n d : Nat) (id : EnsembleId) (c : Catalog) : Prop where
  wf : c.Wf root
  apart : ∀ parent part, name ≠ c.registry.privateName parent part
  hangs : ∀ e ∈ c.registry.ensembles, n < e.id.number → match e.parent with
    | none => ∀ a ∈ c.commands.entries, a.handle = e.command → a.name = name
    | some link => n < link.ensemble.number
  late : n < id.number
  bare : ∃ e, c.registry.get? id = some e ∧ e.parts = .empty
  lies : c.registry.Lies id d

/-- Above the last ensemble of a chain there is the first one. -/
theorem Tip.late_of_path (ht : c.Tip root name n d id) {top e : Ensemble} {names : List String}
    (hp : Path c.registry.ensembles top names e) (he : n < e.id.number) : n < top.id.number := by
  induction hp with
  | self _ => exact he
  | @part names p e part hp hh hm ih =>
    have hlink := ht.hangs e hm he
    rw [ht.wf.registry.parent_of_holds hp.under.mem hm hh] at hlink
    exact ih hlink

theorem Wf.tip_locateTop (hw : c.Wf root) (ha : c.Admits name) :
    ∃ id, (c.locateTop name).outcome = .ok id ∧
      (c.locateTop name).catalog.Tip root name c.registry.issued 0 id := by
  have hput := put_catalog hw name .ensemble
  rw [hw.delete_of_absent ha.absent] at hput
  have hmade : c.locateTop name = ⟨.ok c.registry.nextId,
      ⟨c.commands.install name .ensemble, c.registry.add c.commands.nextHandle none⟩,
      (c.put name .ensemble).freed⟩ := by
    rw [Catalog.locateTop, hw.commands.handleOf?_of_absent ha.absent]
    show c.createTop name = _
    rw [Catalog.createTop, if_neg ha.named]
    simp only [hput]
    rfl
  have hwf := hw.locateTop name
  rw [hmade] at hwf ⊢
  let new := c.registry.fresh c.commands.nextHandle none
  refine ⟨_, rfl, hwf, ha.apart, ?_, Nat.lt_succ_self _, ⟨new, ?_, rfl⟩, ?_⟩
  · intro e he hlate
    obtain rfl | he := List.mem_cons.1 he
    · intro a ham hah
      obtain rfl | ham := List.mem_cons.1 ham
      · rfl
      · exact absurd hah (hw.commands.ne_nextHandle ham)
    · exact absurd (hw.registry.issued e he) (Nat.not_le_of_gt hlate)
  · exact List.find?_cons_of_pos (decide_eq_true rfl)
  · exact .top (e := new) (List.mem_cons_self ..) rfl

/-- No private name is that of the first ensemble of the chain, so the making of the next one
does not destroy the last. -/
theorem Tip.get?_clear (ht : c.Tip root name n d id) (part : String) :
    (c.delete (c.registry.privateName id part)).catalog.registry.get? id ≠ none := by
  intro hclear
  obtain ⟨e, he, hparts⟩ := ht.bare
  have hn : e.parts.find? part = none := hparts ▸ PartTable.find?_empty part
  obtain ⟨top, below, htrail, hf⟩ := (ht.wf.get?_clear_eq_none_iff he hn).1 hclear
  obtain ⟨hem, rfl⟩ := (Registry.get?_eq_some_iff ht.wf.registry).1 he
  obtain ⟨_, _, htrail', htop, hpath⟩ := Registry.trail_spec ht.wf.registry hem
  rw [htrail] at htrail'
  cases htrail'
  obtain ⟨a, hf, hah⟩ := Option.map_eq_some_iff.1 hf
  obtain ⟨ham, han⟩ := (CommandTable.find?_eq_some_iff ht.wf.commands).1 hf
  have hname := ht.hangs top hpath.top_mem (ht.late_of_path hpath ht.late)
  rw [htop] at hname
  exact ht.apart e.id part ((hname a ham hah).symm.trans han)

/-- A new part of an ensemble that is left in place. -/
theorem Wf.exists_new (hw : c.Wf root) {e : Ensemble} (he : c.registry.get? id = some e)
    (hn : e.parts.find? part = none)
    (hclear : (c.delete (c.registry.privateName id part)).catalog.registry.get? id ≠ none) :
    ∃ new ∈ (c.locateNested id part).catalog.registry.ensembles,
      (c.locateNested id part).outcome = .ok new.id ∧ new.parent = some ⟨id, part⟩ ∧
      new.parts = .empty ∧ ∀ a ∈ (c.locateNested id part).catalog.commands.entries,
        a ∈ c.commands.entries ∨ a.handle = c.commands.nextHandle := by
  rw [locateNested_of_absent he hn]
  obtain ⟨h, -⟩ | ⟨-, -, -, hnone, -⟩ | ⟨-, q, parts, -, -, hq, -, ho, hc⟩ :=
    createNested_cases hw id part
  · exact absurd hn (h e he)
  · exact absurd hnone hclear
  · let cleared := (c.delete (c.registry.privateName id part)).catalog
    have hd : cleared.Wf root := hw.delete _
    obtain ⟨hqm, rfl⟩ := (Registry.get?_eq_some_iff hd.registry).1 hq
    rw [ho, hc, Registry.modifyParts_add hd.registry hqm]
    refine ⟨_, List.mem_cons_self .., rfl, rfl, rfl, fun a ha => ?_⟩
    obtain rfl | ha := List.mem_cons.1 ha
    · exact .inr (nextHandle_delete hw _)
    · exact .inl (hw.mem_delete ha).1

theorem Tip.tip_locateNested (ht : c.Tip root name n d id) (part : String) :
    ∃ new, (c.locateNested id part).outcome = .ok new ∧
      (c.locateNested id part).catalog.Tip root name n (d + 1) new := by
  have hwf := ht.wf.locateNested id part
  have hgrows := ht.wf.grows_locateNested id part
  obtain ⟨e, he, hparts⟩ := ht.bare
  have hn : e.parts.find? part = none := hparts ▸ PartTable.find?_empty part
  obtain ⟨new, hnew, ho, hparent, hempty, hentries⟩ :=
    ht.wf.exists_new he hn (ht.get?_clear part)
  obtain ⟨hem, rfl⟩ := (Registry.get?_eq_some_iff ht.wf.registry).1 he
  refine ⟨new.id, ho, hwf, fun parent child hprivate => ?_, fun x hx hlate => ?_, ?_,
    ⟨new, (Registry.get?_eq_some_iff hwf.registry).2 ⟨hnew, rfl⟩, hempty⟩, ?_⟩
  · rw [Registry.privateName_congr (hwf.root.trans ht.wf.root.symm)] at hprivate
    exact ht.apart parent child hprivate
  · obtain ⟨y, hy, hyx⟩ | ⟨-, hlink⟩ := hgrows.ensembles x hx
    · have hold := ht.hangs y hy (hyx.id ▸ hlate)
      rw [← hyx.parent]
      cases hyp : y.parent with
      | some link => rwa [hyp] at hold
      | none =>
        rw [hyp] at hold
        intro a ham hah
        rw [← hyx.command] at hah
        obtain ham | hnext := hentries a ham
        · exact hold a ham hah
        · exact absurd (hah.symm.trans hnext) (ht.wf.ne_nextHandle hy)
    · rw [hlink]
      exact ht.late
  · obtain ⟨above, -, hid, hlt, -⟩ := hwf.registry.hangs new hnew _ hparent
    rw [hid] at hlt
    exact Nat.lt_trans ht.late hlt
  · obtain ⟨top, names, -, htop, hpath⟩ := Registry.trail_spec hwf.registry hnew
    have hlies := Registry.lies_of_path hwf.registry hpath htop
    have hdepth := (hwf.registry.lies_iff hnew).1 hlies
    rw [hparent] at hdepth
    obtain ⟨k, hk, hlength⟩ := hdepth
    have hbefore := hgrows.lies_of_le hwf.registry hk (ht.wf.registry.issued e hem)
    rw [← ht.wf.registry.lies_unique hbefore ht.lies, ← hlength]
    exact hlies

/-- As many parts lead to the last ensemble of a chain as it lies deep. -/
theorem Tip.exists_trail (ht : c.Tip root name n d id) :
    ∃ top names, c.registry.trail id = some (top, names) ∧ names.length = d := by
  obtain ⟨e, he, -⟩ := ht.bare
  obtain ⟨hem, rfl⟩ := (Registry.get?_eq_some_iff ht.wf.registry).1 he
  obtain ⟨top, names, htrail, -⟩ := Registry.trail_spec ht.wf.registry hem
  exact ⟨top, names, htrail,
    ht.wf.registry.lies_unique (ht.wf.registry.lies_of_trail htrail) ht.lies⟩

end Catalog

/-! ## What a chain takes up -/

namespace Run

variable {α β : Type} {root first name : String} {n d needed levels : Nat} {s t : State}
  {a : α} {x : Run α}

/-- The ensemble that the run gives is the last one of a chain that `first` starts. -/
def FindsTip (root first : String) (n d : Nat) (x : Run EnsembleId) (s : State) : Prop :=
  ∃ id t, x s = .ok id t ∧ t.catalog.Tip root first n d id

theorem findsTip_edit {f : Catalog → Edit EnsembleId}
    (h : ∃ id, (f s.catalog).outcome = .ok id ∧ (f s.catalog).catalog.Tip root first n d id) :
    (edit f).FindsTip root first n d s := by
  obtain ⟨id, ho, ht⟩ := h
  refine ⟨id, (edit f).after s, ?_, (catalog_edit f s).symm ▸ ht⟩
  refine (conclude_outcome (edit f) s).symm.trans ?_
  rw [outcome_edit_eq_ok_iff.2 ho]
  rfl

/-- If the levels suffice, the run gives `a` and leaves a chain whose last ensemble lies `d` part
names deep. Else it fails because there are not enough. -/
def Chains (root first : String) (n d needed levels : Nat) (a : α) (x : Run α) (s : State) : Prop :=
  if needed ≤ levels then ∃ t id, x s = .ok a t ∧ t.catalog.Tip root first n d id
  else ∃ e t, x s = .error e t ∧ e.cause = .nestedTooDeep

theorem chains_of_ok {id : EnsembleId} (hx : x s = .ok a t)
    (ht : t.catalog.Tip root first n d id) : x.Chains root first n d 0 levels a s := by
  rw [Chains, if_pos (Nat.zero_le levels)]
  exact ⟨t, id, hx, ht⟩

theorem chains_bind {f : α → Run β} {b : β} (hx : x s = .ok a t)
    (hf : (f a).Chains root first n d needed levels b t) :
    (x >>= f).Chains root first n d needed levels b s := by
  have hb : (x >>= f) s = f a t := by simp only [bind, EStateM.bind, hx]
  rwa [Chains, hb]

theorem chains_map (g : α → β) (hx : x.Chains root first n d needed levels a s) :
    (g <$> x).Chains root first n d needed levels (g a) s := by
  unfold Chains at hx ⊢
  split at hx
  · obtain ⟨t, id, hx, ht⟩ := hx
    rw [if_pos ‹_›]
    exact ⟨t, id, by simp only [Functor.map, EStateM.map, hx], ht⟩
  · obtain ⟨e, t, hx, he⟩ := hx
    rw [if_neg ‹_›]
    exact ⟨e, t, by simp only [Functor.map, EStateM.map, hx], he⟩

theorem chains_mapError {f : State → Error → Error} (hf : ∀ s e, (f s e).cause = e.cause)
    (hx : x.Chains root first n d needed levels a s) :
    (x.mapError f).Chains root first n d needed levels a s := by
  unfold Chains at hx ⊢
  split at hx
  · obtain ⟨t, id, hx, ht⟩ := hx
    rw [if_pos ‹_›]
    exact ⟨t, id, by simp only [mapError, hx], ht⟩
  · obtain ⟨e, t, hx, he⟩ := hx
    rw [if_neg ‹_›]
    exact ⟨f t e, t, by simp only [mapError, hx], (hf t e).trans he⟩

theorem chains_succ (hx : x.Chains root first n d needed levels a s) :
    x.Chains root first n d (needed + 1) (levels + 1) a s := by
  simpa only [Chains, Nat.add_le_add_iff_right] using hx

theorem chains_fail (h : levels < needed) :
    (fail .nestedTooDeep : Run α).Chains root first n d needed levels a s := by
  rw [Chains, if_neg (Nat.not_le_of_gt h)]
  exact ⟨_, s, rfl, rfl⟩

/-- The body of a declaration that declares a chain takes up a level. -/
theorem chains_declareBody {id : EnsembleId} {part : String} {links : List Link}
    (h : ∀ levels, (declareEnsemble (perform levels) (some id) (chain part links)).Chains root
      first n d needed levels () s) :
    (declareBody (perform levels) id (chainScript part links)).Chains root first n d (needed + 1)
      levels () s := by
  unfold chainScript
  cases levels with
  | zero =>
    rw [declareBody_merge_zero]
    exact chains_fail (Nat.succ_pos needed)
  | succ levels =>
    rw [declareBody_merge]
    exact chains_mapError (fun _ _ => rfl) (chains_succ (h levels))

/-- A declaration in the place of the body goes on in the ensemble that is found or made. -/
theorem declareEnsemble_inline (deeper : Deeper) (current : Option EnsembleId) (name part : String)
    (links : List Link) :
    declareEnsemble deeper current (chain name ((.inline, part) :: links)) =
      locate current name >>= fun id => declareEnsemble deeper (some id) (chain part links) := by
  obtain ⟨rest, hrest⟩ := chain_eq_cons part links
  rw [chain, hrest, declareEnsemble]
  · simp only [if_pos]
  · intro h
    cases h

/-- The declaration of a chain gets along with the levels that there are if these suffice for its
bodies, and only then. -/
theorem chains_declareEnsemble {current : Option EnsembleId}
    (hloc : (locate current name).FindsTip root first n d s) (links : List Link) :
    (declareEnsemble (perform levels) current (chain name links)).Chains root first n
      (d + links.length) (bodies links) levels () s := by
  obtain ⟨id, t, hl, ht⟩ := hloc
  induction links generalizing levels current name d s id t with
  | nil => exact chains_map (fun _ => ()) (chains_of_ok hl ht)
  | cons link links ih =>
    obtain ⟨spelling, part⟩ := link
    obtain ⟨id', t', hl', ht'⟩ : (locate (some id) part).FindsTip root first n (d + 1) t :=
      findsTip_edit (f := (·.locateNested id part)) (ht.tip_locateNested part)
    have hnext (levels : Nat) : (declareEnsemble (perform levels) (some id)
        (chain part links)).Chains root first n (d + links.length + 1) (bodies links) levels () t :=
      Nat.add_right_comm d 1 links.length ▸ ih id' t' hl' ht'
    cases spelling with
    | body =>
      rw [bodies_body]
      exact chains_bind hl (chains_declareBody hnext)
    | inline =>
      rw [bodies_inline]
      exact declareEnsemble_inline .. ▸ chains_bind hl (hnext levels)

/-- The script that declares a chain takes up a level itself. -/
theorem chains_eval (levels : Nat) (hw : s.catalog.Wf root) (ha : s.catalog.Admits name)
    (links : List Link) :
    (eval (perform levels) (chainScript name links)).Chains root name s.catalog.registry.issued
      links.length (bodies links + 1) levels (.normal "") s := by
  unfold chainScript
  cases levels with
  | zero =>
    rw [eval_merge_zero]
    exact chains_fail (Nat.succ_pos _)
  | succ levels =>
    rw [eval_merge_succ]
    refine chains_mapError (fun _ _ => rfl) ?_
    have hloc : (locate none name).FindsTip root name s.catalog.registry.issued 0 s :=
      findsTip_edit (f := (·.locateTop name)) (hw.tip_locateTop ha)
    have hdeclare : (declareEnsemble (perform levels) none (chain name links)).Chains root name
        s.catalog.registry.issued links.length (bodies links) levels () s :=
      Nat.zero_add links.length ▸ chains_declareEnsemble hloc links
    have hbuiltin := chains_map (fun _ => Completion.normal "") (chains_succ hdeclare)
    obtain ⟨handle, hf⟩ := ha.builtin
    have hinvoke : perform (levels + 1) (.invoke ("ensemble" :: chain name links)) s =
        builtin (perform levels) .ensemble (chain name links) s := by
      show invoke (perform levels) ("ensemble" :: chain name links) s = _
      simp only [invoke, hf]
    rw [Chains, hinvoke]
    exact hbuiltin

end Run

/-! ## Chains of bodies -/

namespace Work

variable {name : String} {levels : Nat} {s : State} {links : List Link}

theorem along_chain {current : Option EnsembleId} (hlinks : ∀ link ∈ links, link.1 = .body)
    (hc : current = none → s.catalog.TopLevel name) :
    (declareEnsemble current (chain name links)).Along (perform levels)
      (Task.Keeps Watch.bodies levels)
      (fun c name s => c = current ∧ (c = none → s.catalog.TopLevel name)) s := by
  induction links generalizing levels current name s with
  | nil => exact along_discard.2 ⟨⟨rfl, hc⟩, True.intro⟩
  | cons link links ih =>
    obtain ⟨spelling, part⟩ := link
    obtain ⟨rfl, hrest⟩ := List.forall_mem_cons.1 hlinks
    refine along_bind.2 ⟨⟨⟨rfl, hc⟩, True.intro⟩, fun id _ => ?_⟩
    refine along_bind.2 ⟨True.intro, fun commands hp => along_discard.2 ⟨?_, True.intro⟩⟩
    rw [run_lift, Run.outcome, Run.parse, parse_merge rfl] at hp
    cases hp
    cases levels with
    | zero => exact True.intro
    | succ levels =>
      refine along_bind.2 ⟨along_bind.2 ⟨along_mapError.2 ?_, fun _ _ => True.intro⟩,
        fun _ _ => True.intro⟩
      show (declare id _).Along (perform levels) (Task.Keeps Watch.bodies levels)
        (fun c name s => c = some id ∧ (c = none → s.catalog.TopLevel name)) _
      rw [literal_texts, declare, if_pos rfl]
      exact ih hrest fun h => absurd h (Option.some_ne_none id)

theorem expand_texts (texts : List String) : (texts.map Word.ofText).mapM expand = pure texts := by
  induction texts with
  | nil => rfl
  | cons text texts ih =>
    rw [List.map_cons, List.mapM_cons, ih]
    have : expand (Word.ofText text) = pure text := by
      simp [expand, Word.ofText, expandPiece]
    rw [this, pure_bind, pure_bind]

end Work

namespace Interpreter

variable {root name : String} {i : Interpreter} {links : List Link}

/-- A chain of bodies declares nested ensembles in bodies. -/
theorem declaresInBodies_chain (ha : i.state.catalog.Admits name)
    (hlinks : ∀ link ∈ links, link.1 = .body) : i.DeclaresInBodies [chainScript name links] := by
  refine ⟨fun commands hp => ?_, True.intro⟩
  rw [chainScript, parse_merge rfl] at hp
  cases hp
  cases i.limit with
  | zero => exact True.intro
  | succ levels =>
    refine Work.along_bind.2 ⟨Work.along_mapError.2 ?_, ?_⟩
    · rw [Work.evalCommand, Work.expand_texts, pure_bind]
      obtain ⟨handle, hf⟩ := ha.builtin
      simp only [Work.invoke, Work.read, Work.Along, hf]
      exact Work.along_bind.2
        ⟨Work.along_chain hlinks fun _ => ha.topLevel, fun _ _ => True.intro⟩
    · rintro (_ | _) _ <;> exact True.intro

end Interpreter

/-! ## The limit -/

namespace Interpreter

variable {root name : String} {i : Interpreter}

theorem limit_evalAll (i : Interpreter) (scripts : List String) :
    (i.evalAll scripts).limit = i.limit := by
  induction scripts generalizing i with
  | nil => rfl
  | cons script scripts ih =>
    have hscript : (i.eval script).2.limit = i.limit := by rw [eval_eq]
    exact (ih _).trans hscript

theorem reachable_evalAll (hi : Reachable root i) (scripts : List String) :
    Reachable root (i.evalAll scripts) := by
  induction scripts generalizing i with
  | nil => exact hi
  | cons script scripts ih => exact ih (hi.eval script)

theorem admits_new (root : String) (limit : Nat) (hn : name ≠ "")
    (hf : CommandTable.initial.find? name = none)
    (ha : ∀ parent part, name ≠ (Registry.empty root).privateName parent part) :
    (new root limit).state.catalog.Admits name :=
  ⟨⟨⟨2⟩, rfl⟩, hn, hf, ha⟩

/-- A chain is declared if it has fewer bodies than there are levels, however long it is. Else
its declaration fails for want of levels. -/
theorem eval_chain (hi : Reachable root i) (ha : i.state.catalog.Admits name)
    (links : List Link) :
    let r := i.eval (chainScript name links)
    if bodies links < i.limit then
      r.1 = .ok "" ∧ ∃ id top names,
        r.2.state.catalog.registry.trail id = some (top, names) ∧ names.length = links.length
    else ∃ e, r.1 = .error e ∧ e.cause = .nestedTooDeep := by
  intro r
  have hr : r = _ := eval_eq i _
  have hc := Run.chains_eval i.limit hi.wf ha links
  unfold Run.Chains at hc
  split at hc
  · obtain ⟨t, id, hx, ht⟩ := hc
    simp only [Run.outcome, Run.after, hx] at hr
    rw [if_pos ‹_›, hr]
    exact ⟨rfl, id, ht.exists_trail⟩
  · obtain ⟨e, t, hx, he⟩ := hc
    simp only [Run.outcome, hx] at hr
    rw [if_neg ‹_›, hr]
    exact ⟨e, rfl, he⟩

/-- If the scripts declare nested ensembles in bodies only, all ensembles lie less deep than
there are levels. A chain that is declared after any scripts fails for want of levels if it has
as many bodies, and only then; else it leads as deep as it is long. -/
theorem limit_counts_bodies (root : String) (limit : Nat) (scripts : List String) :
    ((new root limit).DeclaresInBodies scripts → ∀ id top names,
      ((new root limit).evalAll scripts).state.catalog.registry.trail id = some (top, names) →
        names.length < limit) ∧
    ∀ name links, ((new root limit).evalAll scripts).state.catalog.Admits name →
      let r := ((new root limit).evalAll scripts).eval (chainScript name links)
      if bodies links < limit then
        r.1 = .ok "" ∧ ∃ id top names,
          r.2.state.catalog.registry.trail id = some (top, names) ∧ names.length = links.length
      else ∃ e, r.1 = .error e ∧ e.cause = .nestedTooDeep := by
  refine ⟨fun hb id top names ht => lt_limit_of_trail hb ht, fun name links ha => ?_⟩
  have hlimit : ((new root limit).evalAll scripts).limit = limit := limit_evalAll _ scripts
  have hchain := eval_chain (reachable_evalAll (.new limit) scripts) ha links
  rw [hlimit] at hchain
  exact hchain

/-- With two levels a body is declared in a chain of three links, and two bodies are not. -/
theorem limit_counts_bodies_two :
    let i := new "::r" 2
    (∀ id top names,
      (i.evalAll [chainScript "a" [(.body, "b")]]).state.catalog.registry.trail id =
        some (top, names) → names.length < 2) ∧
    (i.eval (chainScript "a" [(.inline, "b"), (.body, "c"), (.inline, "d")])).1 = .ok "" ∧
    ∃ e, (i.eval (chainScript "a" [(.body, "b"), (.inline, "c"), (.body, "d")])).1 = .error e ∧
      e.cause = .nestedTooDeep := by
  intro i
  have ha : i.state.catalog.Admits "a" := by
    refine admits_new "::r" 2 (by decide) rfl fun parent part hp => ?_
    have hlength := congrArg String.length hp
    simp only [Registry.privateName, Registry.empty, String.length_append] at hlength
    have hname : "a".length = 1 := rfl
    have hcolons : "::".length = 2 := rfl
    omega
  have hchain := (limit_counts_bodies "::r" 2 []).2 "a"
  refine ⟨(limit_counts_bodies "::r" 2 _).1 (declaresInBodies_chain ha (by decide)), ?_, ?_⟩
  · exact (hchain [(.inline, "b"), (.body, "c"), (.inline, "d")] ha).1
  · exact hchain [(.body, "b"), (.inline, "c"), (.body, "d")] ha

/-- A chain without bodies leads deeper than there are levels. -/
theorem single_declarations_pass :
    let r := (new defaultRoot 1).eval "ensemble a ensemble b ensemble c"
    r.1 = .ok "" ∧ ¬ ∀ id top names,
      r.2.state.catalog.registry.trail id = some (top, names) → names.length ≤ 1 := by
  have hr : ((new defaultRoot 1).eval "ensemble a ensemble b ensemble c").1 = .ok "" ∧
      ((((new defaultRoot 1).eval "ensemble a ensemble b ensemble c").2.state.catalog.registry.trail
        ⟨3⟩).map (·.2)) = some ["b", "c"] := by
    decide +kernel
  refine ⟨hr.1, fun h => ?_⟩
  obtain ⟨⟨top, names⟩, htrail, hnames⟩ := Option.map_eq_some_iff.1 hr.2
  have hle := h ⟨3⟩ top names htrail
  rw [show names = ["b", "c"] from hnames] at hle
  exact absurd hle (by decide)

end Interpreter

end Ensembles
