import Sequitur.CommandLine
import Sequitur.Proofs.Derivation

/-!
# Soundness of checking

If nothing is found wrong with files that are checked in order, then the targets of every theorem in
them are derivable from its assumptions by the axioms declared before it, and no step of its proof has
a hole (`CommandLine.derivable_of_exitCode_eq_zero`).

A hole always comes with a fault, so without faults all arguments are complete (`Step.Elaborates.solid`). A
step takes back what is left to prove: if the goals after it are derivable, so are those before
(`Goals.of_advance`). At the end of a proof without faults there are no goals.
-/

namespace Sequitur

/-! ### Computations without faults -/

namespace Noted

variable {α β : Type} {P : β → Prop}

/-- If no fault is found, the value has a property. -/
def Ensures (x : Noted α) (Q : α → Prop) : Prop := x.notes.diagnostics = [] → Q x.value

theorem Yields.ensures {x : Noted α} {Q : α → Prop} (h : x.Yields Q) : x.Ensures Q := fun _ => h

theorem ensures_pure {Q : α → Prop} {a : α} (h : Q a) : (pure a : Noted α).Ensures Q := fun _ => h

theorem ensures_bind {Q : α → Prop} {x : Noted α} {f : α → Noted β} (hx : x.Ensures Q)
    (hf : ∀ a, Q a → (f a).Ensures P) : (x >>= f).Ensures P := by
  intro h
  rw [notes_bind, Notes.diagnostics_append, List.append_eq_nil_iff] at h
  exact hf _ (hx h.1) h.2

theorem ensures_then {x : Noted α} {f : α → Noted β} (hf : ∀ a, (f a).Ensures P) :
    (x >>= f).Ensures P :=
  ensures_bind (Q := fun _ => True) (fun _ => trivial) fun a _ => hf a

theorem ensures_fault {k : Fault} {token : Token.Ref} {f : Unit → Noted β} :
    (fault k token >>= f).Ensures P := nofun

theorem ensures_ite {c : Prop} [Decidable c] {x y : Noted β} (hx : c → x.Ensures P)
    (hy : ¬c → y.Ensures P) : (if c then x else y).Ensures P :=
  iteInduction (motive := (Ensures · P)) hx hy

end Noted

open Noted

namespace Expr

variable {scope : Scope} {params : List Param}

/-- Where there are no holes and none is created, a leaf is a parameter. -/
theorem Leaf.exists_param {want : Param} {e : Expr} {t : Term} {c : List Holes.Call}
    (h : e.Leaf scope params want [] t c) (hc : ∀ d ∈ c, d.creates = false) :
    c = [] ∧ ∃ param, Param.find? params e.head.text = some param ∧ t = .var e.head e.span param := by
  cases h with
  | var hparam => exact ⟨rfl, _, hparam, rfl⟩
  | use hhole => exact absurd hhole nofun
  | named => exact absurd (hc _ (List.mem_singleton_self _)) nofun
  | fresh => exact absurd (hc _ (List.mem_singleton_self _)) nofun

/-- Where there are no holes and no fault is found, there are none afterwards. -/
theorem Fills.solid {head : Token.Ref} {wants : List Param} {es : List Expr} {ts : List Term}
    {cs : List Holes.Call} {n : Notes} (h : Fills scope params head wants es [] ts cs n)
    (hlen : es.length = wants.length) (hclean : n.diagnostics = []) :
    cs = [] ∧ ∀ t ∈ ts, t.hasHole = false := by
  generalize hnil : ([] : Holes) = hs at h
  induction h with
  | done => exact ⟨rfl, List.forall_mem_nil _⟩
  | missing => exact absurd hlen nofun
  | leaf hleaf _ hfault _ ih =>
    subst hnil
    obtain ⟨hm, hn⟩ := List.append_eq_nil_iff.1 hclean
    obtain ⟨rfl, param, -, rfl⟩ := hleaf.exists_param (hfault hm).2
    obtain ⟨rfl, hts⟩ := ih (Nat.succ.inj hlen) hn rfl
    exact ⟨rfl, List.forall_mem_cons.2 ⟨rfl, hts⟩⟩
  | app _ _ hargs _ _ _ ihargs ih =>
    subst hnil
    obtain ⟨hlm, hn⟩ := List.append_eq_nil_iff.1 hclean
    obtain ⟨rfl, has⟩ := ihargs hargs (List.append_eq_nil_iff.1 hlm).2 rfl
    obtain ⟨rfl, hts⟩ := ih (Nat.succ.inj hlen) hn rfl
    exact ⟨rfl, List.forall_mem_cons.2 ⟨Term.hasHole_app.2 has, hts⟩⟩

end Expr

theorem Step.Elaborates.solid {scope : Scope} {thm : Rule} {es : List Expr} {steps : List Step}
    {others : List Suggestion} {cs : List Holes.Call} {n : Notes}
    (h : Elaborates scope thm es [] steps others cs n) (hclean : n.diagnostics = []) :
    cs = [] ∧ ∀ s ∈ steps, s.usesHole = false := by
  generalize hnil : ([] : Holes) = hs at h
  induction h with
  | nil => exact ⟨rfl, List.forall_mem_nil _⟩
  | unnamed _ _ hfault => exact absurd (List.append_eq_nil_iff.1 hclean).1 hfault
  | named _ _ hlen hargs _ _ ih =>
    subst hnil
    obtain ⟨hklm, hn⟩ := List.append_eq_nil_iff.1 hclean
    obtain ⟨hkl, -⟩ := List.append_eq_nil_iff.1 hklm
    obtain ⟨hk, hl⟩ := List.append_eq_nil_iff.1 hkl
    obtain ⟨rfl, hts⟩ := hargs.solid (hlen hk) hl
    obtain ⟨rfl, hsteps⟩ := ih hn rfl
    refine ⟨rfl, List.forall_mem_cons.2 ⟨?_, hsteps⟩⟩
    simpa [apply] using hts

/-! ### Goals -/

namespace Goals

theorem added_subset (assumed : NameSet) (seen : List String) (as : List Term) :
    added assumed seen as ⊆ as := by
  induction as generalizing seen with
  | nil => exact List.Subset.refl _
  | cons a as ih =>
    rw [added]
    split
    · exact List.subset_cons_of_subset _ (ih seen)
    · exact List.cons_subset_cons _ (ih _)

/-- An assumption that does not become a goal has the key of something known. -/
theorem key_mem_of_mem {assumed : NameSet} {seen : List String} {as : List Term} {a : Term}
    (h : a ∈ as) : a.key ∈ assumed ∨ a.key ∈ seen ∨ ∃ b ∈ added assumed seen as, b.key = a.key := by
  induction as generalizing seen with
  | nil => exact absurd h List.not_mem_nil
  | cons b as ih =>
    rw [added]
    split
    · next hknown =>
      rcases List.mem_cons.1 h with rfl | h
      · have hknown : a.key ∈ assumed ∨ a.key ∈ seen := by simpa using hknown
        exact hknown.imp_right .inl
      · exact ih h
    · rcases List.mem_cons.1 h with rfl | h
      · exact .inr (.inr ⟨a, List.mem_cons_self .., rfl⟩)
      · rcases @ih (b.key :: seen) h with hk | hk | ⟨c, hc, hk⟩
        · exact .inl hk
        · rcases List.mem_cons.1 hk with hk | hk
          · exact .inr (.inr ⟨b, List.mem_cons_self .., hk.symm⟩)
          · exact .inr (.inl hk)
        · exact .inr (.inr ⟨c, List.mem_cons_of_mem _ hc, hk⟩)

/-- Terms of some kind `G`, where having a property `D` depends on the key only. -/
structure ByKey (G D : Term → Prop) : Prop where
  of_key_eq : ∀ s t, G s → G t → s.key = t.key → D s → D t

variable {G D : Term → Prop} {hyps current targets assumptions goals : List Term}

theorem of_advance (hD : ByKey G D) (hhyps : ∀ h ∈ hyps, G h ∧ D h) (hcurrent : ∀ t ∈ current, G t)
    (htargets : ∀ t ∈ targets, G t) (hassumptions : ∀ t ∈ assumptions, G t)
    (hstep : (∀ a ∈ assumptions, D a) → ∀ t ∈ targets, D t)
    (h : advance (.ofList (Term.keys hyps)) current targets assumptions = some goals)
    (hgoals : ∀ t ∈ goals, D t) : ∀ t ∈ current, D t := by
  -- a term with the key of one that has the property has it too
  have hkeys : ∀ {ts : List Term} {t : Term}, (∀ s ∈ ts, G s ∧ D s) → G t → t.key ∈ Term.keys ts → D t := by
    intro ts t hts ht hk
    rw [Term.keys_eq_map] at hk
    obtain ⟨s, hs, he⟩ := List.mem_map.1 hk
    exact hD.of_key_eq s t (hts s hs).1 ht he (hts s hs).2
  have hassumed : ∀ t, G t → t.key ∈ NameSet.ofList (Term.keys hyps) → D t := fun t ht hk =>
    hkeys hhyps ht (NameSet.mem_ofList.1 hk)
  unfold advance at h
  dsimp only at h
  split at h
  · cases h
    have hrest := fun t ht => hgoals t (List.mem_append_right _ ht)
    have hall : ∀ a ∈ assumptions, D a := by
      intro a ha
      rcases key_mem_of_mem ha with hk | hk | ⟨b, hb, hk⟩
      · exact hassumed a (hassumptions a ha) hk
      · refine hkeys (fun s hs => ⟨?_, hrest s hs⟩) (hassumptions a ha) hk
        exact hcurrent s (List.mem_of_mem_filter hs)
      · refine hD.of_key_eq b a (hassumptions b ?_) (hassumptions a ha) hk (hgoals b ?_)
        · exact added_subset _ _ _ hb
        · exact List.mem_append_left _ hb
    intro t ht
    by_cases hproved : t.key ∈ Term.keys targets
    · exact hkeys (fun s hs => ⟨htargets s hs, hstep hall s hs⟩) (hcurrent t ht) hproved
    by_cases hk : t.key ∈ NameSet.ofList (Term.keys hyps)
    · exact hassumed t (hcurrent t ht) hk
    · have hk : (NameSet.ofList (Term.keys hyps)).contains t.key = false :=
        Bool.eq_false_iff.2 fun hc => hk (NameSet.contains_iff.1 hc)
      exact hrest t (List.mem_filter.2 ⟨ht, by simp [hproved, hk]⟩)
  · exact absurd h nofun

theorem subset_of_advance {assumed : NameSet} (h : advance assumed current targets assumptions = some goals) :
    goals ⊆ assumptions ++ current := by
  unfold advance at h
  dsimp only at h
  split at h
  · cases h
    refine List.append_subset.2 ⟨fun t ht => ?_, fun t ht => ?_⟩
    · exact List.mem_append_left _ (added_subset _ _ _ ht)
    · exact List.mem_append_right _ (List.mem_of_mem_filter ht)
  · exact absurd h nofun

end Goals

namespace Step

variable {thm : Rule} {G D : Term → Prop}

/-- A step leads from terms with a property to such terms. -/
structure Leads (G D : Term → Prop) (s : Step) : Prop where
  targets : ∀ t ∈ s.targets, G t
  assumptions : ∀ t ∈ s.assumptions, G t
  leads : (∀ a ∈ s.assumptions, D a) → ∀ t ∈ s.targets, D t

/-- Where every step is useful and no goals are left, all goals at the start have the property. -/
theorem ensures_replay (hD : Goals.ByKey G D) (hhyps : ∀ h ∈ thm.assumptions, G h ∧ D h) (holes : Holes)
    {current : List Term} (hcurrent : ∀ t ∈ current, G t) {steps : List Step}
    (hsteps : ∀ s ∈ steps, s.Leads G D) :
    (replay thm holes current steps).Ensures fun r =>
      r.1.getLast?.getD current = [] → ∀ t ∈ current, D t := by
  induction steps generalizing current with
  | nil =>
    refine Yields.ensures (yields_pure fun hnil => ?_)
    have hnil : current = [] := hnil
    rw [hnil]
    exact nofun
  | cons step steps ih =>
    obtain ⟨hstep, hsteps⟩ := List.forall_mem_cons.1 hsteps
    unfold replay
    split
    · next goals hgoals =>
      refine ensures_then fun _ => ?_
      have hG : ∀ t ∈ goals, G t := by
        intro t ht
        rcases List.mem_append.1 (Goals.subset_of_advance hgoals ht) with ht | ht
        · exact hstep.assumptions t ht
        · exact hcurrent t ht
      refine ensures_bind (ih hG hsteps) fun r hr => Yields.ensures (yields_pure fun hnil => ?_)
      refine Goals.of_advance hD hhyps hcurrent hstep.targets hstep.assumptions hstep.leads hgoals (hr ?_)
      rwa [List.getLast?_cons, Option.getD_some] at hnil
    · exact ensures_fault

end Step

/-! ### Theorems -/

/-- The targets are derivable by what was declared before, and the proof has no holes. -/
structure Thm.Sound (before : List Decl) (t : Thm) : Prop where
  derivable : ∀ target ∈ t.rule.targets, Derivable before t.rule.params t.rule.assumptions target
  noHole : ∀ s ∈ t.proof, s.usesHole = false ∧ ∀ a ∈ s.args, a.hasHole = false

def Decl.Sound (before : List Decl) : Decl → Prop
  | .thm t => t.Sound before
  | _ => True

variable {decls : List Decl} {scope : Scope}

theorem Rule.admissible_of_mem (hwf : InOrder Decl.WellFormed [] decls) (hs : InOrder Decl.Sound [] decls)
    {d : Decl} {r : Rule} (hd : d ∈ decls) (hr : d.rule? = some r) : r.Admissible decls := by
  obtain ⟨before, after, rfl⟩ := List.append_of_mem hd
  cases d with
  | type d => exact absurd hr nofun
  | term d => exact absurd hr nofun
  | axm r' =>
    cases hr
    exact admissible_of_axm hd
  | thm t =>
    cases hr
    obtain ⟨hbefore, hthm, -⟩ := inOrder_append.1 hwf
    have hsound := (inOrder_append.1 hs).2.1
    exact admissible_of_derivable hbefore (List.subset_append_left ..) hthm.1 hsound.derivable

/-- The statements of a rule under arguments are what they should be. -/
theorem Rule.subst_eq_graft (hwf : InOrder Decl.WellFormed [] decls) {d : Decl} {r : Rule} (hd : d ∈ decls)
    (hr : d.rule? = some r) {params : List Param} {args : List Term} {t : Term}
    (hargs : IsInstance decls params r.params args) (ht : t ∈ r.targets ∨ t ∈ r.assumptions) :
    t.subst (.ofArgs r.params args) = t.graft (.ofArgs r.params args) ∧
      (t.graft (.ofArgs r.params args)).Complete decls params := by
  obtain ⟨before, after, rfl, hbefore, hdecl⟩ := hwf.exists_before hd
  have hrule := hdecl.rule hr
  have hcomplete : t.Complete before r.params := ht.elim (hrule.targets t) (hrule.assumptions t)
  refine ⟨hcomplete.subst_eq_graft (hrule.params.namesApart hbefore) hargs.fits.length_eq, ?_⟩
  exact (hcomplete.graft hrule.params.nodup (List.subset_append_left ..) hargs).2

theorem Step.WellFormed.leads (hwf : InOrder Decl.WellFormed [] decls) (hs : InOrder Decl.Sound [] decls)
    {thm : Rule} {s : Step} (h : s.WellFormed decls thm) (hholes : s.usesHole = false) (hyps : List Term) :
    s.Leads (Term.Complete decls thm.params) (Derivable decls thm.params hyps) := by
  obtain ⟨d, hd, -, hr⟩ := h.rule
  have hargs : IsInstance decls thm.params s.rule.params s.args :=
    ⟨h.args, h.usesHole_eq_false.1 hholes⟩
  have hsubst := fun {t} => Rule.subst_eq_graft (t := t) hwf hd hr hargs
  have htargets : s.targets = s.rule.targets.map (Term.graft (.ofArgs s.rule.params s.args)) := by
    rw [h.eq_apply]
    exact List.map_congr_left fun t ht => (hsubst (.inl ht)).1
  have hassumptions : s.assumptions = s.rule.assumptions.map (Term.graft (.ofArgs s.rule.params s.args)) := by
    rw [h.eq_apply]
    exact List.map_congr_left fun t ht => (hsubst (.inr ht)).1
  refine ⟨?_, ?_, ?_⟩
  · rw [htargets]
    exact List.forall_mem_map.2 fun t ht => (hsubst (.inl ht)).2
  · rw [hassumptions]
    exact List.forall_mem_map.2 fun t ht => (hsubst (.inr ht)).2
  · rw [htargets, hassumptions]
    intro ha
    refine List.forall_mem_map.2 (Rule.admissible_of_mem hwf hs hd hr _ _ _ hargs ?_)
    exact List.forall_mem_map.1 ha

theorem Thm.ensures_prove (hwf : InOrder Decl.WellFormed [] scope.decls)
    (hs : InOrder Decl.Sound [] scope.decls) {rule : Rule} (hrule : rule.WellFormed scope.decls)
    (proof : List Expr) :
    (Thm.prove scope rule proof).Ensures fun thm => thm.isProved = true → thm.Sound scope.decls := by
  have hnames := hrule.params.namesApart hwf
  have hkey : Goals.ByKey (Term.Complete scope.decls rule.params)
      (Derivable scope.decls rule.params rule.assumptions) :=
    ⟨fun s t hs ht he hder => hder.of_bare_eq (hs.bare_eq_of_key_eq hnames ht he)⟩
  have hhyps : ∀ h ∈ rule.assumptions, h.Complete scope.decls rule.params ∧
      Derivable scope.decls rule.params rule.assumptions h := fun h hh =>
    ⟨hrule.assumptions h hh, .hyp hh rfl⟩
  obtain ⟨cs, -, helaborates⟩ := exists_elaborates scope rule proof
  have helaborated : ((Step.elaborateAll scope rule proof).run ∅).Ensures fun r =>
      (∀ s ∈ r.1.1, s.WellFormed scope.decls rule) ∧ ∀ s ∈ r.1.1, s.usesHole = false :=
    fun hclean => ⟨helaborates.wellFormed, (helaborates.solid hclean).2⟩
  unfold prove
  refine ensures_bind helaborated fun ⟨⟨steps, _⟩, table⟩ ⟨hsteps, hholes⟩ => ?_
  have hleads := fun s hm => (hsteps s hm).leads hwf hs (hholes s hm) rule.assumptions
  refine ensures_bind (Step.ensures_replay hkey hhyps table.holes hrule.targets hleads) fun r hderivable => ?_
  refine Yields.ensures (yields_pure fun hproved => ⟨hderivable (List.isEmpty_iff.1 hproved), fun s hm => ?_⟩)
  exact ⟨hholes s hm, (hsteps s hm).usesHole_eq_false.1 (hholes s hm)⟩

/-! ### Declarations -/

/-- Well formed, and all theorems sound. -/
structure SoundTable (decls : List Decl) : Prop where
  wellFormed : InOrder Decl.WellFormed [] decls
  sound : InOrder Decl.Sound [] decls

theorem Scope.ensures_declare {d : Decl} (h : InOrder Decl.Sound [] scope.decls) (hd : d.Sound scope.decls) :
    (scope.declare d).Ensures fun table => InOrder Decl.Sound [] { scope with table }.decls := by
  unfold declare
  split
  · next table ht =>
    refine Yields.ensures (yields_pure ?_)
    have hdecls : { scope with table }.decls = scope.decls ++ [d] := by
      simp [decls, (Table.insert_eq_ok ht).2]
    rw [hdecls]
    exact inOrder_append.2 ⟨h, hd, trivial⟩
  · exact ensures_fault

theorem TypeBlock.ensures_declareNames (span : Span) (names : List Token.Ref)
    (h : InOrder Decl.Sound [] scope.decls) : (declareNames scope span names).Ensures fun table =>
      InOrder Decl.Sound [] { scope with table }.decls := by
  induction names generalizing scope with
  | nil => exact Yields.ensures (yields_pure h)
  | cons n ns ih =>
    unfold declareNames
    refine ensures_then fun ok => ensures_ite (fun _ => ?_) fun _ => ih h
    exact ensures_bind (Scope.ensures_declare h trivial) fun table htable => ih htable

theorem TermBlock.ensures_declare (b : TermBlock) (h : InOrder Decl.Sound [] scope.decls) :
    (b.declare scope).Ensures fun table => InOrder Decl.Sound [] { scope with table }.decls := by
  have hkeep : (pure scope.table : Noted Table).Ensures fun table =>
      InOrder Decl.Sound [] { scope with table }.decls := Yields.ensures (yields_pure h)
  unfold declare
  refine ensures_then fun _ => ensures_ite (fun _ => hkeep) fun _ => ?_
  refine ensures_then fun _ => ensures_ite (fun _ => hkeep) fun _ => ?_
  refine ensures_then fun _ => ensures_ite (fun _ => hkeep) fun _ => ensures_then fun _ => ?_
  exact Scope.ensures_declare h trivial

theorem Block.ensures_declare {b : Block} {ls : List Lexeme} (hb : b.ReadFrom ls)
    (hw : ∀ r, WordIn ls r → IsWord r.text) (h : SoundTable scope.decls) :
    (b.declare scope).Ensures fun table => InOrder Decl.Sound [] { scope with table }.decls := by
  cases b with
  | types b => exact TypeBlock.ensures_declareNames b.span b.names h.sound
  | term b => exact b.ensures_declare h.sound
  | axm b =>
    refine ensures_then fun r? => ?_
    match r? with
    | none => exact Yields.ensures (yields_pure h.sound)
    | some r => exact Scope.ensures_declare h.sound trivial
  | thm b =>
    refine ensures_bind (RuleBlock.yields_rule? hb.1 hw).ensures fun r? hr => ?_
    match r? with
    | none => exact Yields.ensures (yields_pure h.sound)
    | some r =>
      refine ensures_bind (Thm.ensures_prove h.wellFormed h.sound (hr r rfl) b.proof) fun thm hthm => ?_
      refine ensures_ite (fun _ => ensures_fault) fun hproved => ?_
      exact Scope.ensures_declare h.sound (hthm (by simpa using hproved))

theorem Block.ensures_declareAll {blocks : List Block} {ls : List Lexeme}
    (hb : ∀ b ∈ blocks, b.ReadFrom ls) (hw : ∀ r, WordIn ls r → IsWord r.text)
    (h : SoundTable scope.decls) :
    (declareAll scope blocks).Ensures fun table => SoundTable { scope with table }.decls := by
  induction blocks generalizing scope with
  | nil => exact Yields.ensures (yields_pure h)
  | cons b blocks ih =>
    obtain ⟨hb, hbs⟩ := List.forall_mem_cons.1 hb
    refine ensures_bind (Q := fun table => SoundTable { scope with table }.decls) (fun hclean => ?_) fun
      table htable => ih hbs htable
    obtain ⟨himports, htable⟩ := inOrder_append.1 h.wellFormed
    exact ⟨inOrder_append.2 ⟨himports, keepsWellFormed_declare hb hw htable⟩,
      ensures_declare hb hw h hclean⟩

/-! ### Files -/

theorem Document.soundTable_check {imports : List Table} {searchLimit : Nat} {text : String}
    (h : SoundTable (imports.flatMap (·.decls)))
    (hclean : (Document.check imports searchLimit text).diagnostics = []) :
    SoundTable (imports.flatMap (·.decls) ++ (Document.check imports searchLimit text).decls) := by
  have hscope : SoundTable ({ imports, searchLimit } : Scope).decls := by
    have hdecls : ({ imports, searchLimit } : Scope).decls = imports.flatMap (·.decls) :=
      List.append_nil _
    rwa [hdecls]
  have hread : (Block.readAll (Token.scan text)).Yields fun blocks =>
      ∀ b ∈ blocks, b.ReadFrom (Lexeme.ofTokens (Token.scan text)) := fun b hb =>
    Block.readFrom_of_mem_readAll hb
  refine ensures_bind hread.ensures
    (fun blocks hb => Block.ensures_declareAll hb (fun _ => WordIn.isWord) hscope) ?_
  rw [← List.length_eq_zero_iff, ← List.length_mergeSort, List.length_eq_zero_iff]
  exact hclean

def Decl.thm? : Decl → Option Thm
  | .thm t => some t
  | _ => none

theorem Decl.eq_of_thm? {d : Decl} {t : Thm} (h : d.thm? = some t) : d = .thm t := by
  unfold thm? at h
  split at h
  · cases h
    rfl
  · cases h

namespace CommandLine

theorem soundTable_checkSources {imports : List Table} {sources : List Source}
    (h : SoundTable (imports.flatMap (·.decls)))
    (hclean : ∀ c ∈ checkSources imports sources, c.2.diagnostics = []) :
    SoundTable (imports.flatMap (·.decls) ++ (checkSources imports sources).flatMap (·.2.decls)) := by
  induction sources generalizing imports with
  | nil => simpa [checkSources] using h
  | cons s sources ih =>
    rw [checkSources] at hclean ⊢
    obtain ⟨hdoc, hclean⟩ := List.forall_mem_cons.1 hclean
    have hnext := Document.soundTable_check h hdoc
    have hrest := ih (by simpa [Document.decls] using hnext) hclean
    simpa [Document.decls] using hrest

theorem diagnostics_eq_nil {o : Options} {sources : List Source}
    (h : (checkAll o sources).status.exitCode = 0) :
    ∀ c ∈ checkSources [] sources, c.2.diagnostics = [] := by
  have hcount : (checkSources [] sources).foldr (fun c n => c.2.diagnostics.length + n) 0 = 0 := by
    by_contra hne
    simp only [checkAll, if_neg hne] at h
    exact absurd h Nat.one_ne_zero
  generalize checkSources [] sources = checked at hcount
  induction checked with
  | nil => exact List.forall_mem_nil _
  | cons c checked ih =>
    obtain ⟨hc, hchecked⟩ := Nat.add_eq_zero_iff.1 hcount
    exact List.forall_mem_cons.2 ⟨List.length_eq_zero_iff.1 hc, ih hchecked⟩

/-- What files declare, in order. -/
def declared (sources : List Source) : List Decl := (checkSources [] sources).flatMap (·.2.decls)

/-- Files that pass hold sound theorems only: what a theorem claims is derivable by the axioms declared
before it, all uses of other theorems being expanded. -/
theorem derivable_of_exitCode_eq_zero {o : Options} {sources : List Source}
    (h : (checkAll o sources).status.exitCode = 0) {i : Nat} {t : Thm}
    (ht : (declared sources)[i]? = some (.thm t)) :
    (∀ target ∈ t.rule.targets,
      Derivable ((declared sources).take i) t.rule.params t.rule.assumptions target) ∧
    ∀ s ∈ t.proof, s.usesHole = false ∧ ∀ a ∈ s.args, a.hasHole = false := by
  have hsound : InOrder Decl.Sound [] (declared sources) :=
    (@soundTable_checkSources [] sources ⟨trivial, trivial⟩ (diagnostics_eq_nil h)).sound
  obtain ⟨hi, ht⟩ := List.getElem?_eq_some_iff.1 ht
  have hsplit : declared sources = (declared sources).take i ++ .thm t :: (declared sources).drop (i + 1) := by
    rw [← ht, List.getElem_cons_drop, List.take_append_drop]
  rw [hsplit] at hsound
  have hthm : t.Sound _ := (inOrder_append.1 hsound).2.1
  exact ⟨hthm.derivable, hthm.noHole⟩

/-- Two files: an axiom, and theorems of which the second uses the first. -/
def chain : List Source :=
  [⟨"axioms", "type T term T f(T x) axiom up(T x) { |- f(x) -| x }"⟩,
    ⟨"theorems", "thm two(T y) { |- f(f(y)) -| y } = { up(f(y)) up(y) }
      thm three(T z) { |- f(f(f(z))) -| z } = { up(f(f(z))) two(z) }"⟩]

theorem derivable_chain : (checkAll {} chain).status.exitCode = 0 ∧
    ∃ t, (declared chain)[4]? = some (.thm t) ∧ Term.keys t.rule.targets = ["f(f(f(z)))"] ∧
      ∀ target ∈ t.rule.targets,
        Derivable ((declared chain).take 4) t.rule.params t.rule.assumptions target := by
  have hexit : (checkAll {} chain).status.exitCode = 0 := by decide +kernel
  have hthm : ((declared chain)[4]?.bind Decl.thm?).map (fun t => Term.keys t.rule.targets) =
      some ["f(f(f(z)))"] := by decide +kernel
  obtain ⟨t, ht, hkeys⟩ := Option.map_eq_some_iff.1 hthm
  obtain ⟨d, hd, hdt⟩ := Option.bind_eq_some_iff.1 ht
  rw [Decl.eq_of_thm? hdt] at hd
  exact ⟨hexit, t, hd, hkeys, (derivable_of_exitCode_eq_zero hexit hd).1⟩

end CommandLine

end Sequitur
