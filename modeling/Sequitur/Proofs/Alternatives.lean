import Sequitur.Proofs.Suggesting
import Sequitur.Proofs.TypedUnification

/-!
# Types of alternatives

The alternatives for a useless step are its instances under candidates. All the terms that candidates are
found from are well typed: the goals of a theorem, its assumptions, and what its steps say. So the
arguments of an alternative fit the parameters of its rule, with two provisos
(`Document.fits_alternatives`). No hole may have the name of something else, or else a candidate replaces
that too. And a hole must not be a whole statement, unless what it is unified with has its type; a rule
can state a parameter of any type. Both are needed (`Document.not_fits_alternatives`).
-/

namespace Sequitur

open Noted

/-! ### Terms of a proof -/

section

variable {Γ : Context}

/-- What a rule says of well-typed arguments is well typed. -/
theorem Term.Complete.in_subst {decls : List Decl} {wants : List Param} {args : List Term} {t : Term}
    (h : t.Complete decls wants) (hn : NamesApart decls wants) (hdecls : decls ⊆ Γ.decls)
    (hfits : Fits Γ.decls Γ.params args wants) (hargs : ∀ a ∈ args, a.In Γ) :
    (t.subst (.ofArgs wants args)).type = t.type ∧ (t.subst (.ofArgs wants args)).In Γ := by
  rw [h.subst_eq_graft hn hfits.length_eq]
  induction t using Term.ind with
  | var head span param =>
    obtain ⟨a, ha, hget, htype⟩ := hfits.exists_get?_ofArgs hn.paramNames h.wellTyped.1
    rw [graft_var, hget, Option.getD_some]
    exact ⟨htype, hargs a ha⟩
  | hole head span param => exact absurd h.noHole (by simp)
  | app head span decl args' ih =>
    obtain ⟨⟨hdecl, hhead⟩, hfits', hholes⟩ := complete_app.1 h
    rw [graft_app]
    refine ⟨rfl, in_app_map (hdecls hdecl) hhead hfits' fun a ha => ?_⟩
    exact ih a ha ⟨hfits'.wellTyped_of_mem ha, hholes a ha⟩

theorem Step.WellFormed.in {thm : Rule} {s : Step} (hwf : InOrder Decl.WellFormed [] Γ.decls)
    (hparams : thm.params = Γ.params) (h : s.WellFormed Γ.decls thm) (hargs : ∀ a ∈ s.args, a.In Γ) :
    (∀ t ∈ s.targets, t.In Γ) ∧ ∀ t ∈ s.assumptions, t.In Γ := by
  obtain ⟨d, hd, -, hr⟩ := h.rule
  obtain ⟨before, after, hsplit, hbefore, hdecl⟩ := hwf.exists_before hd
  have hrule := hdecl.rule hr
  have hdecls : before ⊆ Γ.decls := hsplit ▸ List.subset_append_left ..
  have hfits := hparams ▸ h.args
  have hsubst : ∀ t : Term, t.Complete before s.rule.params → (t.subst (.ofArgs s.rule.params s.args)).In Γ :=
    fun t ht => (ht.in_subst (hrule.params.namesApart hbefore) hdecls hfits hargs).2
  constructor
  · intro t ht
    rw [h.eq_apply] at ht
    obtain ⟨r, hr, rfl⟩ := List.mem_map.1 ht
    exact hsubst r (hrule.targets r hr)
  · intro t ht
    rw [h.eq_apply] at ht
    obtain ⟨r, hr, rfl⟩ := List.mem_map.1 ht
    exact hsubst r (hrule.assumptions r hr)

end

/-! ### Alternatives -/

/-- A step of a proof with what is kept beside it. -/
structure CheckedStep extends Step where
  /-- The goals left after the step. -/
  goals : List Term
  alternatives : List Step

namespace CheckedStep

def pair (steps : List Step) (goals : List (List Term)) (alternatives : List (List Step)) :
    List CheckedStep :=
  List.zipWith (fun s r => { s with goals := r.1, alternatives := r.2 }) steps (goals.zip alternatives)

theorem getElem?_pair {steps : List Step} {goals : List (List Term)} {alternatives : List (List Step)} {i : Nat}
    {c : CheckedStep} : (pair steps goals alternatives)[i]? = some c ↔
      steps[i]? = some c.toStep ∧ goals[i]? = some c.goals ∧ alternatives[i]? = some c.alternatives := by
  rw [pair, List.getElem?_zipWith_eq_some]
  constructor
  · rintro ⟨s, r, hs, hr, rfl⟩
    obtain ⟨hgoals, halts⟩ := List.getElem?_zip_eq_some.1 hr
    exact ⟨hs, hgoals, halts⟩
  · rintro ⟨hs, hgoals, halts⟩
    exact ⟨c.toStep, (c.goals, c.alternatives), hs, List.getElem?_zip_eq_some.2 ⟨hgoals, halts⟩, rfl⟩

end CheckedStep

namespace Thm

/-- The steps of a proof, each with its goals and its alternatives. -/
def checked (t : Thm) : List CheckedStep := CheckedStep.pair t.proof t.trace t.alternatives

theorem mem_proof_of_mem_checked {t : Thm} {s : CheckedStep} (hs : s ∈ t.checked) : s.toStep ∈ t.proof := by
  obtain ⟨i, hi⟩ := List.getElem?_of_mem hs
  exact List.mem_of_getElem? (CheckedStep.getElem?_pair.1 hi).1

/-- No step is left out. -/
theorem exists_checked {t : Thm} (h : t.Aligned) {s : Step} {alts : List Step}
    (hs : (s, alts) ∈ t.proof.zip t.alternatives) : ∃ goals, ⟨s, goals, alts⟩ ∈ t.checked := by
  obtain ⟨i, hi⟩ := List.getElem?_of_mem hs
  obtain ⟨hstep, halts⟩ := List.getElem?_zip_eq_some.1 hi
  have hlt : i < t.trace.length := by
    rw [h.trace]
    exact (List.getElem?_eq_some_iff.1 hstep).1
  exact ⟨t.trace[i], List.mem_of_getElem?
    (CheckedStep.getElem?_pair.2 ⟨hstep, List.getElem?_eq_getElem hlt, halts⟩)⟩

end Thm

namespace Step

/-- What an alternative takes over from its step. -/
theorem eq_of_instantiate? {thm : Rule} {holes : Holes} {s alt : Step} {τ : Subst}
    (h : instantiate? thm holes s τ = some alt) : alt = { s with
      args := s.args.map (Term.subst τ)
      targets := s.targets.map (Term.subst τ)
      assumptions := s.assumptions.map (Term.subst τ)
      distinct := s.distinct.reinstantiate τ
      usesHole := (s.args.map (Term.subst τ)).any Term.hasHole
      violations := thm.violations (s.distinct.reinstantiate τ)
      edits := holes.flatMap (holeEdits s τ) } := by
  unfold instantiate? at h
  dsimp only at h
  split at h
  · cases h
  · cases h
    rfl

theorem exists_candidate_of_mem_alternatives {thm : Rule} {holes : Holes} {current : List Term}
    {step alt : Step} (h : alt ∈ step.alternatives thm holes current) :
    ∃ σ ∈ candidates current step.targets step.assumptions thm.assumptions,
      alt.rule = step.rule ∧ alt.args = step.args.map (Term.subst σ) := by
  obtain ⟨σ, hσ, hsome⟩ := List.mem_filterMap.1 h
  refine ⟨σ, hσ, ?_⟩
  rw [eq_of_instantiate? hsome]
  exact ⟨rfl, rfl⟩

/-- The goals beside a step are those of the theorem or come from the assumptions of steps, and its
alternatives are for these goals. -/
theorem yields_alternatives_replay (thm : Rule) (holes : Holes) (current : List Term) (steps : List Step) :
    (replay thm holes current steps).Yields fun r => ∀ c ∈ CheckedStep.pair steps r.1 r.2,
      (∀ g ∈ c.goals, g ∈ current ∨ ∃ s ∈ steps, g ∈ s.assumptions) ∧
        ∀ alt ∈ c.alternatives, alt ∈ c.toStep.alternatives thm holes c.goals := by
  induction steps generalizing current with
  | nil => exact yields_pure (List.forall_mem_nil _)
  | cons step steps ih =>
    -- what holds of the steps after this one, from goals that come from here
    have hrest : ∀ goals, (∀ g ∈ goals, g ∈ current ∨ ∃ s ∈ step :: steps, g ∈ s.assumptions) →
        (replay thm holes goals steps).Yields fun r => ∀ c ∈ CheckedStep.pair steps r.1 r.2,
          (∀ g ∈ c.goals, g ∈ current ∨ ∃ s ∈ step :: steps, g ∈ s.assumptions) ∧
            ∀ alt ∈ c.alternatives, alt ∈ c.toStep.alternatives thm holes c.goals := by
      intro goals hgoals
      refine (ih goals).mono fun r hr c hc => ⟨fun g hg => ?_, (hr c hc).2⟩
      rcases (hr c hc).1 g hg with hg | ⟨s, hs, hg⟩
      · exact hgoals g hg
      · exact .inr ⟨s, List.mem_cons_of_mem _ hs, hg⟩
    unfold replay
    split
    · next goals hgoals =>
      have hfrom : ∀ g ∈ goals, g ∈ current ∨ ∃ s ∈ step :: steps, g ∈ s.assumptions := by
        intro g hg
        rcases List.mem_append.1 (Goals.subset_of_advance hgoals hg) with hg | hg
        · exact .inr ⟨step, List.mem_cons_self .., hg⟩
        · exact .inl hg
      refine yields_then fun _ => yields_bind (hrest goals hfrom) fun r hr => yields_pure ?_
      exact List.forall_mem_cons.2 ⟨⟨hfrom, List.forall_mem_nil _⟩, hr⟩
    · have hfrom : ∀ g ∈ current, g ∈ current ∨ ∃ s ∈ step :: steps, g ∈ s.assumptions :=
        fun g hg => .inl hg
      refine yields_then fun _ => yields_bind (hrest current hfrom) fun r hr => yields_pure ?_
      exact List.forall_mem_cons.2 ⟨⟨hfrom, fun alt halt => halt⟩, hr⟩

end Step

namespace Candidate

/-- The pairs that were unified, one after the other, to find a candidate. -/
inductive FoundFrom (current targets assumptions hyps : List Term) : List (Term × Term) → Subst → Prop where
  | goal {target goal : Term} {σ : Subst} : target ∈ targets → goal ∈ current →
    Term.unify ∅ target goal = some σ → FoundFrom current targets assumptions hyps [(target, goal)] σ
  | hyp {target goal a h : Term} {σ τ : Subst} : target ∈ targets → goal ∈ current →
    Term.unify ∅ target goal = some σ → a ∈ assumptions → h ∈ hyps → Term.unify σ a h = some τ →
    FoundFrom current targets assumptions hyps [(target, goal), (a, h)] τ

variable {current targets assumptions hyps : List Term} {σ : Subst} {Γ : Context}

theorem exists_foundFrom (h : σ ∈ candidates current targets assumptions hyps) :
    ∃ ps, FoundFrom current targets assumptions hyps ps σ := by
  obtain ⟨goal, hgoal, target, htarget, σ₀, hσ₀, hor⟩ := mem_found.1 (found_of_mem_candidates h)
  rcases hor with rfl | hext
  · exact ⟨_, .goal htarget hgoal hσ₀⟩
  · obtain ⟨a, ha, x, hx, hσ, -⟩ := mem_extensions.1 hext
    exact ⟨_, .hyp htarget hgoal hσ₀ ha hx hσ⟩

theorem FoundFrom.mem_pairs {ps : List (Term × Term)} (h : FoundFrom current targets assumptions hyps ps σ) :
    ps ⊆ pairs current targets assumptions hyps := by
  cases h with
  | goal ht hg _ =>
    exact List.cons_subset.2 ⟨List.mem_append_left _ (List.pair_mem_product.2 ⟨ht, hg⟩), List.nil_subset _⟩
  | hyp ht hg _ ha hh _ =>
    refine List.cons_subset.2 ⟨List.mem_append_left _ (List.pair_mem_product.2 ⟨ht, hg⟩), ?_⟩
    exact List.cons_subset.2 ⟨List.mem_append_right _ (List.pair_mem_product.2 ⟨ha, hh⟩), List.nil_subset _⟩

theorem FoundFrom.in {ps : List (Term × Term)} (h : FoundFrom current targets assumptions hyps ps σ)
    (hgoals : ∀ t ∈ current, t.In Γ) (htargets : ∀ t ∈ targets, t.In Γ)
    (hassumptions : ∀ t ∈ assumptions, t.In Γ) (hhyps : ∀ t ∈ hyps, t.In Γ)
    (hps : ∀ p ∈ ps, SameType p.1 p.2) : σ.In Γ := by
  have hempty : Subst.In Γ ∅ := fun v t ht => by cases ht
  cases h with
  | goal ht hg hσ =>
    exact Term.in_unify hempty (htargets _ ht) (hgoals _ hg) (List.forall_mem_cons.1 hps).1 hσ
  | hyp ht hg hσ₀ ha hh hσ =>
    obtain ⟨hfirst, hps⟩ := List.forall_mem_cons.1 hps
    have hin := Term.in_unify hempty (htargets _ ht) (hgoals _ hg) hfirst hσ₀
    exact Term.in_unify hin (hassumptions _ ha) (hhyps _ hh) (List.forall_mem_cons.1 hps).1 hσ

end Candidate

/-! ### Theorems -/

theorem Decl.WellFormed.isType {before : List Decl} {d : Decl} (h : d.WellFormed before) {p : Param}
    (hp : p ∈ d.params) : IsType before p.type.text := by
  cases d with
  | type d => exact absurd hp List.not_mem_nil
  | term d => exact h.params.types p hp
  | axm r => exact h.params.types p hp
  | thm t => exact h.1.params.types p hp

theorem isWord_type_of_mem_params {decls : List Decl} (h : InOrder Decl.WellFormed [] decls) {d : Decl}
    (hd : d ∈ decls) {p : Param} (hp : p ∈ d.params) : IsWord p.type.text := by
  obtain ⟨before, after, rfl, hbefore, hwf⟩ := h.exists_before hd
  obtain ⟨e, he, hname⟩ := hwf.isType hp
  rw [← hname]
  exact (hbefore.nodup_names.2 _ he).word

namespace Thm

variable {scope : Scope} {rule : Rule} {proof : List Expr}

theorem isWord_name_of_mem_created (htypes : ∀ d ∈ scope.decls, ∀ p ∈ d.params, IsWord p.type.text)
    (hwords : ∀ e ∈ proof, ∀ r ∈ e.heads, IsWord r.text) {hole : Hole}
    (h : hole ∈ created scope rule proof) : IsWord hole.name := by
  have hcreated := (known_created scope rule proof).toCreated
  obtain ⟨i, hi, rfl⟩ := List.getElem_of_mem h
  cases hcreated.origin i _ (List.getElem?_eq_getElem hi) with
  | written hhead _ =>
    obtain ⟨e, he, hr⟩ := List.mem_flatMap.1 hhead
    exact hwords e he _ hr
  | madeUp n _ hname =>
    obtain ⟨d, hd, hp⟩ := hcreated.wanted _ h
    rw [hname]
    exact Holes.isWord_nameAt (htypes d hd _ hp) n

/-- The type of the first hole of a name. -/
def holeType? (t : Thm) (v : String) : Option String :=
  (Term.findHole? (t.proof.flatMap (·.args)) v).map Term.type

theorem exists_hole_of_holeType? {t : Thm} {v type : String} (h : t.holeType? v = some type) :
    ∃ s ∈ t.proof, ∃ a ∈ s.args, ∃ x ∈ a.holes, x.key = v ∧ x.type = type := by
  obtain ⟨x, hx, htype⟩ := Option.map_eq_some_iff.1 h
  have hmem := List.mem_of_find?_eq_some hx
  rw [Term.holesAll_eq_flatMap] at hmem
  obtain ⟨a, ha, hmem⟩ := List.mem_flatMap.1 hmem
  obtain ⟨s, hs, ha⟩ := List.mem_flatMap.1 ha
  exact ⟨s, hs, a, ha, x, hmem, by simpa using List.find?_some hx, htype⟩

/-- Holes of one name are one hole, so the first has the type of all. -/
theorem holeType?_key {s : Step} (hs : s ∈ (prove scope rule proof).value.proof) {a x : Term}
    (ha : a ∈ s.args) (hx : x ∈ a.holes) :
    (prove scope rule proof).value.holeType? x.key = some x.type := by
  have hhygienic := hygienic_prove scope rule proof
  have hsome : ((prove scope rule proof).value.holeType? x.key).isSome := by
    rw [holeType?, Option.isSome_map]
    refine Term.isSome_findHole? (List.mem_flatMap.2 ⟨s, hs, ha⟩) (Term.mem_holeNames.2 ?_)
    exact List.mem_map_of_mem hx
  obtain ⟨type, htype⟩ := Option.isSome_iff_exists.1 hsome
  obtain ⟨s', hs', a', ha', y, hy, hkey, rfl⟩ := exists_hole_of_holeType? htype
  obtain ⟨hole, hmem, rfl⟩ := hhygienic.created s hs a ha x hx
  obtain ⟨hole', hmem', rfl⟩ := hhygienic.created s' hs' a' ha' y hy
  rw [htype, List.inj_on_of_nodup_map hhygienic.nodup hmem' hmem hkey]

/-- The arguments of all steps are in one context, if no hole has the name of something else. -/
theorem exists_context (hwf : InOrder Decl.WellFormed [] scope.decls)
    (hparams : ParamsOk scope.decls rule.params) (hwords : ∀ e ∈ proof, ∀ r ∈ e.heads, IsWord r.text)
    (hapart : ∀ s ∈ (prove scope rule proof).value.proof, ∀ a ∈ s.args, ∀ h ∈ a.holes,
      Apart scope.decls rule.params h.key) :
    ∃ Γ : Context, Γ.decls = scope.decls ∧ Γ.params = rule.params ∧
      ∀ s ∈ (prove scope rule proof).value.proof, ∀ a ∈ s.args, a.In Γ := by
  have hhygienic := hygienic_prove scope rule proof
  refine ⟨⟨scope.decls, rule.params, (prove scope rule proof).value.holeType?, hparams.namesApart hwf,
    fun v hv => ?_, fun v hv => ?_⟩, rfl, rfl, fun s hs a ha => ⟨?_, fun x hx => holeType?_key hs ha hx⟩⟩
  · obtain ⟨type, htype⟩ := Option.isSome_iff_exists.1 hv
    obtain ⟨s, hs, a, ha, x, hx, rfl, -⟩ := exists_hole_of_holeType? htype
    obtain ⟨hole, hmem, rfl⟩ := hhygienic.created s hs a ha x hx
    exact isWord_name_of_mem_created (fun d hd p hp => isWord_type_of_mem_params hwf hd hp) hwords hmem
  · obtain ⟨type, htype⟩ := Option.isSome_iff_exists.1 hv
    obtain ⟨s, hs, a, ha, x, hx, rfl, -⟩ := exists_hole_of_holeType? htype
    exact hapart s hs a ha x hx
  · exact ((Thm.yields_prove scope rule proof).2.1 s hs).args.wellTyped_of_mem ha

/-- The goals beside a step are targets of the theorem or assumptions of steps, and its alternatives are for
these goals. -/
theorem goals_prove {s : CheckedStep} (hs : s ∈ (prove scope rule proof).value.checked) :
    (∀ g ∈ s.goals, g ∈ rule.targets ∨ ∃ c ∈ (prove scope rule proof).value.proof, g ∈ c.assumptions) ∧
      ∀ alt ∈ s.alternatives, alt ∈ s.toStep.alternatives rule (created scope rule proof) s.goals :=
  Step.yields_alternatives_replay rule (created scope rule proof) rule.targets (steps scope rule proof) s hs

/-- The alternatives of a proof in a context. -/
theorem fits_of_context {Γ : Context} (hdecls : Γ.decls = scope.decls) (hparams : Γ.params = rule.params)
    (hwf : InOrder Decl.WellFormed [] scope.decls) (hrule : rule.WellFormed scope.decls)
    (hargs : ∀ s ∈ (prove scope rule proof).value.proof, ∀ a ∈ s.args, a.In Γ) :
    ∀ s ∈ (prove scope rule proof).value.checked, ∀ alt ∈ s.alternatives,
      ∃ σ ps, Candidate.FoundFrom s.goals s.targets s.assumptions rule.assumptions ps σ ∧
        alt.rule = s.rule ∧ alt.args = s.args.map (Term.subst σ) ∧
        ((∀ p ∈ ps, SameType p.1 p.2) → Term.Fits scope.decls rule.params alt.args s.rule.params) := by
  rw [← hdecls] at hwf hrule ⊢
  have hsteps : ∀ s ∈ (prove scope rule proof).value.proof, s.WellFormed Γ.decls rule := by
    rw [hdecls]
    exact (Thm.yields_prove scope rule proof).2.1
  have hin := fun s hs => (hsteps s hs).in hwf hparams.symm (hargs s hs)
  have hcomplete : ∀ t : Term, t.Complete Γ.decls rule.params → t.In Γ := fun t ht => (hparams ▸ ht).in
  intro s hs alt halt
  obtain ⟨hgoals, halts⟩ := goals_prove hs
  replace hs := mem_proof_of_mem_checked hs
  obtain ⟨σ, hσ, hrule', hargs'⟩ := Step.exists_candidate_of_mem_alternatives (halts alt halt)
  obtain ⟨ps, hfound⟩ := Candidate.exists_foundFrom hσ
  refine ⟨σ, ps, hfound, hrule', hargs', fun hps => ?_⟩
  have hgoals : ∀ g ∈ s.goals, g.In Γ := by
    intro g hg
    rcases hgoals g hg with hg | ⟨c, hc, hg⟩
    · exact hcomplete g (hrule.targets g hg)
    · exact (hin c hc).2 g hg
  have hσ : σ.In Γ := hfound.in hgoals (hin _ hs).1 (hin _ hs).2
    (fun t ht => hcomplete t (hrule.assumptions t ht)) hps
  rw [hargs']
  refine (hsteps _ hs).args.map fun a ha _ => ?_
  obtain ⟨htype, hsubst⟩ := hσ.subst (hargs _ hs a ha)
  exact ⟨htype, hparams ▸ hsubst.wellTyped⟩

end Thm

namespace Document

/-- The arguments of an alternative fit the parameters of its rule. -/
theorem fits_alternatives {imports : List Table} {searchLimit : Nat} {text : String} {i : Nat} {t : Thm}
    (himports : InOrder Decl.WellFormed [] (imports.flatMap (·.decls)))
    (ht : (check imports searchLimit text).decls[i]? = some (.thm t))
    (hapart : ∀ s ∈ t.proof, ∀ a ∈ s.args, ∀ h ∈ a.holes,
      Apart (scopeAt imports searchLimit text i).decls t.rule.params h.key) :
    t.Aligned ∧ ∀ s ∈ t.checked, ∀ alt ∈ s.alternatives,
      ∃ σ ps, Candidate.FoundFrom s.goals s.targets s.assumptions t.rule.assumptions ps σ ∧
        alt.rule = s.rule ∧ alt.args = s.args.map (Term.subst σ) ∧
        ((∀ p ∈ ps, SameType p.1 p.2) →
          Term.Fits (scopeAt imports searchLimit text i).decls t.rule.params alt.args s.rule.params) := by
  obtain ⟨b, hb, -, hprove⟩ := exists_block_of_thm ht
  obtain ⟨hscope, hrule, -, haligned⟩ := wellFormed_scopeAt ht
  have hwf : InOrder Decl.WellFormed [] (scopeAt imports searchLimit text i).decls :=
    inOrder_append.2 ⟨himports, hscope⟩
  have hwords : ∀ e ∈ b.proof, ∀ r ∈ e.heads, IsWord r.text := fun e he r hr =>
    ((Block.readFrom_of_mem_readAll hb).2 e he r hr).isWord
  rw [← hprove] at hapart
  obtain ⟨Γ, hdecls, hparams, hargs⟩ := Thm.exists_context hwf hrule.params hwords hapart
  have hfits := Thm.fits_of_context hdecls hparams hwf hrule hargs
  rw [hprove] at hfits
  exact ⟨haligned, hfits⟩

/-- An argument is missing, and what it has to be is an application. -/
def unfilled : String :=
  "type W S term W f(S s, W v) axiom a(S s, W v) { |- f(s, v) }
    thm t(S x, W w) { |- f(x, f(x, w)) } = { a(x) }"

/-- No hole of a theorem has the name of something in scope. -/
abbrev HolesApart (text : String) (i : Nat) (t : Thm) : Prop :=
  ∀ s ∈ t.proof, ∀ a ∈ s.args, ∀ h ∈ a.holes, Apart (scopeAt [] 5 text i).decls t.rule.params h.key

/-- No whole statement that is unified for a step is a hole. -/
abbrev NoHoleStated (t : Thm) (s : CheckedStep) : Prop :=
  ∀ p ∈ Candidate.pairs s.goals s.targets s.assumptions t.rule.assumptions,
    p.1.isHole = false ∧ p.2.isHole = false

theorem fits_alternatives_unfilled : ∃ t, (check [] 5 unfilled).decls[4]? = some (.thm t) ∧
    HolesApart unfilled 4 t ∧ ∃ s ∈ t.checked, ∃ alt ∈ s.alternatives, NoHoleStated t s ∧
      Term.keys alt.args = ["x", "f(x,w)"] ∧
      Term.Fits (scopeAt [] 5 unfilled 4).decls t.rule.params alt.args s.rule.params := by
  have hthm : ∃ t, (check [] 5 unfilled).decls[4]? = some (.thm t) ∧ HolesApart unfilled 4 t ∧
      ∃ s ∈ t.checked, ∃ alt ∈ s.alternatives, NoHoleStated t s ∧ Term.keys alt.args = ["x", "f(x,w)"] :=
    Decl.exists_thm_of_any (by decide +kernel)
  obtain ⟨t, ht, hapart, s, hs, alt, halt, hstated, hkeys⟩ := hthm
  refine ⟨t, ht, hapart, s, hs, alt, halt, hstated, hkeys, ?_⟩
  have himports : InOrder Decl.WellFormed [] (([] : List Table).flatMap (·.decls)) := trivial
  obtain ⟨σ, ps, hfound, -, -, hfits⟩ := (fits_alternatives himports ht hapart).2 s hs alt halt
  refine hfits fun p hp hhole => ?_
  obtain ⟨hleft, hright⟩ := hstated p (hfound.mem_pairs hp)
  rw [hleft, hright] at hhole
  exact absurd hhole (by decide)

/-- A rule states its parameter, and the goal is a parameter of another type. -/
def stated : String :=
  "type W S axiom a(W p) { |- p } thm t(S x) { |- x } = { a }"

/-- The name that is made up for a missing argument is that of the argument before it. -/
def capturedArgument : String :=
  "type W S term W f(S s, W v) axiom a(S s, W v) { |- f(s, v) }
    thm t(S ?W0, W w) { |- f(?W0, w) } = { a(?W0) }"

/-- Alternatives with an argument of a wrong type: one where no hole has the name of something else, one
where no hole is a whole statement. -/
theorem not_fits_alternatives :
    (∃ t, (check [] 5 stated).decls[3]? = some (.thm t) ∧ HolesApart stated 3 t ∧
      ∃ s ∈ t.checked, ∃ alt ∈ s.alternatives,
        alt.args.map Term.type ≠ s.rule.params.map (·.type.text)) ∧
    ∃ t, (check [] 5 capturedArgument).decls[4]? = some (.thm t) ∧
      ∃ s ∈ t.checked, NoHoleStated t s ∧ ∃ alt ∈ s.alternatives,
        alt.args.map Term.type ≠ s.rule.params.map (·.type.text) := by
  exact ⟨Decl.exists_thm_of_any (by decide +kernel), Decl.exists_thm_of_any (by decide +kernel)⟩

end Document

end Sequitur
