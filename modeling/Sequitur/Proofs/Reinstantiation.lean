import Sequitur.Proofs.DistinctComposition
import Sequitur.Proofs.HoleNames
import Sequitur.Proofs.Simultaneous

/-!
# Alternatives as applied rules

An alternative is made from a step and not from its rule: a candidate is put into terms that were already
instantiated, and into distinctness conditions that were already brought down to leaves. The result is what
the rule gives when it is applied to the arguments of the alternative (`Document.reapplied_alternatives`),
unless a hole has the name of a constant in the rule (`Document.not_reapplied_capturedInRule`).

That is a law of composition for terms (`Term.Complete.subst_ofArgs_subst`) and one for conditions
(`Distinct.reinstantiate_instantiate`). A constant that comes with an argument may be replaced, because it
is replaced in the argument too. A constant of the rule may not.
-/

namespace Sequitur

variable {σ τ : Subst} {t : Term}

/-! ### Terms -/

namespace Term

theorem get?_key_app_eq_none (hσ : σ.OnWords) {head : Token.Ref} {span : Span} {decl : TermDecl}
    {args : List Term} (h : args = [] → σ.get? decl.name.text = none) :
    σ.get? (key (.app head span decl args)) = none := by
  by_cases hargs : args = []
  · subst hargs
    exact h rfl
  · exact get?_key_app hσ hargs

theorem subst_leaf {l : Term} (hl : l ∈ t.leaves) (σ : Subst) : l.subst σ = (σ.get? l.key).getD l := by
  have hargs := args_of_mem_leaves hl
  cases l with
  | var head span param => rfl
  | hole head span param => rfl
  | app head span decl args =>
    obtain rfl : args = [] := hargs
    exact subst_app ..

end Term

section

variable {decls decls' : List Decl} {params wants : List Param} {args : List Term}

theorem ParamsOk.newName_of_get?_ofArgs (h : ParamsOk decls wants) (hlen : args.length = wants.length)
    {x : String} (hx : ((Subst.ofArgs wants args).get? x).isSome) : NewName decls x := by
  by_cases hmem : x ∈ wants.map (·.name.text)
  · obtain ⟨p, hp, rfl⟩ := List.mem_map.1 hmem
    exact h.names p hp
  · rw [Subst.get?_ofArgs_of_not_mem hlen hmem] at hx
    exact absurd hx Bool.false_ne_true

/-- Arguments take the place of parameters only. -/
theorem ParamsOk.get?_ofArgs_key_app (h : ParamsOk decls wants) (hlen : args.length = wants.length)
    {decl : TermDecl} (hdecl : .term decl ∈ decls) (head : Token.Ref) (span : Span) (ts : List Term) :
    (Subst.ofArgs wants args).get? (Term.key (.app head span decl ts)) = none := by
  refine Term.get?_key_app_eq_none (fun x hx => (h.newName_of_get?_ofArgs hlen hx).word) fun _ => ?_
  refine Option.not_isSome_iff_eq_none.1 fun hx => ?_
  exact (h.newName_of_get?_ofArgs hlen hx).fresh _ hdecl rfl

/-- Putting `τ` into an instance is putting it into the arguments, if it maps no constant of the term. -/
theorem Term.Complete.subst_ofArgs_subst (h : t.Complete decls wants) (hwants : ParamsOk decls wants)
    (hfits : Fits decls' params args wants) (hτ : τ.OnWords)
    (hconst : ∀ l ∈ t.leaves, l.decl?.isSome → τ.get? l.key = none) :
    (t.subst (.ofArgs wants args)).subst τ = t.subst (.ofArgs wants (args.map (subst τ))) := by
  have hlen : (args.map (subst τ)).length = wants.length := by rw [List.length_map, hfits.length_eq]
  induction t using Term.ind with
  | var head span param =>
    obtain ⟨a, -, ha, -⟩ := hfits.exists_get?_ofArgs hwants.nodup h.wellTyped.1
    rw [subst_var, subst_var, ← Subst.map_ofArgs, NameMap.get?_map, ha]
    rfl
  | hole head span param => exact absurd h.noHole (by simp)
  | app head span decl ts ih =>
    obtain ⟨⟨hmem, -⟩, htsFit, hholes⟩ := complete_app.1 h
    -- the key of the instance is that of a constant only if the term is one
    have hnone : τ.get? (key (.app head span decl (ts.map (subst (.ofArgs wants args))))) = none := by
      refine get?_key_app_eq_none hτ fun hnil => ?_
      obtain rfl := List.map_eq_nil_iff.1 hnil
      exact hconst (.app head span decl []) (leaves_app_nil head span decl ▸ List.mem_singleton_self _) rfl
    rw [subst_app, hwants.get?_ofArgs_key_app hfits.length_eq hmem, Option.getD_none, subst_app, hnone,
      Option.getD_none, subst_app, hwants.get?_ofArgs_key_app hlen hmem, Option.getD_none, List.map_map]
    refine congrArg _ (List.map_congr_left fun a ha => ?_)
    refine ih a ha ⟨htsFit.wellTyped_of_mem ha, hholes a ha⟩ fun l hl => ?_
    exact hconst l (leaves_subset_of_mem_args ha hl)

end

/-! ### Conditions -/

/-- The leaves that come to stand in the place of a leaf. -/
def Subst.leafNamesAt (τ : Subst) (x : String) : NameSet := ((τ.get? x).map Term.leafNames).getD (.ofList [x])

theorem Subst.OnWords.mem_leafNames_subst (hτ : τ.OnWords) {x : String} :
    x ∈ (t.subst τ).leafNames ↔ ∃ y ∈ t.leafNames, x ∈ τ.leafNamesAt y := by
  have hleaf : ∀ l ∈ t.leaves, x ∈ (l.subst τ).leafNames ↔ x ∈ τ.leafNamesAt l.key := by
    intro l hl
    rw [Term.subst_leaf hl, leafNamesAt]
    cases τ.get? l.key with
    | some s => exact Iff.rfl
    | none => simp [Term.mem_leafNames, Term.leaves_leaf hl, eq_comm]
  rw [Term.mem_leafNames_subst hτ]
  constructor
  · rintro ⟨l, hl, hx⟩
    exact ⟨l.key, Term.mem_leafNames.2 ⟨l, hl, rfl⟩, (hleaf l hl).1 hx⟩
  · rintro ⟨y, hy, hx⟩
    obtain ⟨l, hl, rfl⟩ := Term.mem_leafNames.1 hy
    exact ⟨l, hl, (hleaf l hl).2 hx⟩

namespace Distinct

variable {d e : Distinct} {G : List (List String)} {x y : String}

theorem mem_pairs : (x, y) ∈ d.pairs ↔ d.has x y = true := by
  simp only [pairs, List.mem_flatMap, List.mem_map, Prod.exists, Prod.mk.injEq, NameMap.mem_toList,
    NameSet.mem_toList, has_iff]
  constructor
  · rintro ⟨a, bs, ha, b, hb, rfl, rfl⟩
    exact ⟨bs, ha, hb⟩
  · rintro ⟨bs, hx, hy⟩
    exact ⟨x, bs, hx, y, hy, rfl, rfl⟩

theorem has_reinstantiate : (d.reinstantiate τ).has x y = true ↔
    ∃ a b, d.has a b = true ∧ ∃ p ∈ τ.leafNamesAt a, ∃ q ∈ τ.leafNamesAt b, (x, y) = ordered p q := by
  have hfold : ∀ (l : List (String × String)) (e : Distinct),
      (l.foldl (fun e ab => e.insertProduct (τ.leafNamesAt ab.1) (τ.leafNamesAt ab.2)) e).has x y = true ↔
        (∃ ab ∈ l, ∃ p ∈ τ.leafNamesAt ab.1, ∃ q ∈ τ.leafNamesAt ab.2, (x, y) = ordered p q) ∨
          e.has x y = true := by
    intro l
    induction l with
    | nil => simp
    | cons ab l ih =>
      intro e
      rw [List.foldl_cons, ih, has_insertProduct]
      simp only [List.mem_cons, exists_eq_or_imp, or_assoc, or_left_comm]
  have hdef : d.reinstantiate τ =
      d.pairs.foldl (fun e ab => e.insertProduct (τ.leafNamesAt ab.1) (τ.leafNamesAt ab.2)) ∅ := rfl
  rw [hdef, hfold, has_empty]
  simp only [Prod.exists, mem_pairs, Bool.false_eq_true, or_false]

/-- No name is kept without partners. -/
def Proper (d : Distinct) : Prop := ∀ a bs, d.partners.get? a = some bs → ∃ b, b ∈ bs

namespace Proper

theorem insert (h : d.Proper) (a b : String) : (d.insert a b).Proper := by
  intro x bs hx
  rw [Distinct.insert, insertOrdered, NameMap.get?_insert] at hx
  split at hx
  · cases hx
    exact ⟨_, NameSet.mem_insert.2 (.inl rfl)⟩
  · exact h x bs hx

theorem insertProduct (h : d.Proper) (as bs : NameSet) : (d.insertProduct as bs).Proper :=
  List.foldlRecOn _ _ h fun _ hd a _ => List.foldlRecOn _ _ hd fun _ hd b _ => hd.insert a b

theorem insertAcross (h : d.Proper) (sets : List NameSet) : (d.insertAcross sets).Proper := by
  induction sets generalizing d with
  | nil => exact h
  | cons s sets ih => exact ih (List.foldlRecOn _ _ h fun _ hd t _ => hd.insertProduct s t)

theorem eq_of_has (hd : d.Proper) (he : e.Proper) (h : ∀ x y, d.has x y = true ↔ e.has x y = true) :
    d = e := by
  have hnone : ∀ {d e : Distinct}, d.Proper → (∀ x y, d.has x y = true → e.has x y = true) →
      ∀ a, e.partners.get? a = none → d.partners.get? a = none := by
    intro d e hd h a ha
    cases hbs : d.partners.get? a with
    | none => rfl
    | some bs =>
      obtain ⟨b, hb⟩ := hd a bs hbs
      obtain ⟨cs, hcs, -⟩ := has_iff.1 (h a b (has_iff.2 ⟨bs, hbs, hb⟩))
      rw [ha] at hcs
      cases hcs
  have hpartners : d.partners = e.partners := by
    ext1 a
    cases hcs : e.partners.get? a with
    | none => exact hnone hd (fun x y => (h x y).1) a hcs
    | some cs =>
      cases hbs : d.partners.get? a with
      | none => rw [← hcs, hnone he (fun x y => (h x y).2) a hbs]
      | some bs =>
        have hmem : ∀ b, b ∈ bs ↔ b ∈ cs := by
          intro b
          have := h a b
          simpa [has_iff, hbs, hcs] using this
        rw [NameSet.ext hmem]
  cases d
  cases e
  exact congrArg Distinct.mk hpartners

end Proper

theorem proper_empty : (∅ : Distinct).Proper := fun _ _ h => by cases h

/-- Instantiating conditions again is instantiating the groups once. -/
theorem reinstantiate_instantiate (G : List (List String)) (σ : Subst) (hτ : τ.OnWords) :
    (instantiate G σ).reinstantiate τ = instantiate G (σ.comp τ) := by
  have hleft : ((instantiate G σ).reinstantiate τ).Proper :=
    List.foldlRecOn _ _ proper_empty fun _ hd _ _ => hd.insertProduct _ _
  have hright : (instantiate G (σ.comp τ)).Proper :=
    List.foldlRecOn _ _ proper_empty fun _ hd _ _ => hd.insertAcross _
  refine hleft.eq_of_has hright fun x y => ?_
  rw [has_reinstantiate, has_comp]
  constructor
  · rintro ⟨a, b, hab, p, hp, q, hq, hxy⟩
    obtain ⟨g, hg, m, n, s, t, hmn, hs, ht, c, hc, d, hd, hcd⟩ := has_instantiate.1 hab
    refine ⟨g, hg, m, n, s, t, hmn, hs, ht, ?_⟩
    rcases ordered_cases hcd with ⟨rfl, rfl⟩ | ⟨rfl, rfl⟩
    · exact ⟨p, hτ.mem_leafNames_subst.2 ⟨a, hc, hp⟩, q, hτ.mem_leafNames_subst.2 ⟨b, hd, hq⟩, hxy⟩
    · exact ⟨q, hτ.mem_leafNames_subst.2 ⟨b, hc, hq⟩, p, hτ.mem_leafNames_subst.2 ⟨a, hd, hp⟩,
        ordered_comm q p ▸ hxy⟩
  · rintro ⟨g, hg, m, n, s, t, hmn, hs, ht, p, hp, q, hq, hxy⟩
    obtain ⟨c, hc, hp⟩ := hτ.mem_leafNames_subst.1 hp
    obtain ⟨d, hd, hq⟩ := hτ.mem_leafNames_subst.1 hq
    obtain ⟨a, b, hab⟩ : ∃ a b, (a, b) = ordered c d := ⟨_, _, rfl⟩
    refine ⟨a, b, has_instantiate.2 ⟨g, hg, m, n, s, t, hmn, hs, ht, c, hc, d, hd, hab⟩, ?_⟩
    rcases ordered_cases hab with ⟨rfl, rfl⟩ | ⟨rfl, rfl⟩
    · exact ⟨p, hp, q, hq, hxy⟩
    · exact ⟨q, hq, p, hp, ordered_comm p q ▸ hxy⟩

end Distinct

/-! ### Steps -/

/-- The names of constants in what a rule states. -/
def Rule.constants (r : Rule) : List String :=
  (((r.targets ++ r.assumptions).flatMap Term.leaves).filter (·.decl?.isSome)).map Term.key

theorem Rule.key_mem_constants {r : Rule} {l : Term} (ht : t ∈ r.targets ++ r.assumptions) (hl : l ∈ t.leaves)
    (hdecl : l.decl?.isSome) : l.key ∈ r.constants :=
  List.mem_map_of_mem (List.mem_filter.2 ⟨List.mem_flatMap.2 ⟨t, ht, hl⟩, hdecl⟩)

namespace Step

variable {thm : Rule} {holes : Holes} {before : List Decl} {s alt : Step}

/-- A step is what its rule gives in the proof of `thm`, but for the edits that come with it. -/
structure Reapplied (thm : Rule) (s alt : Step) : Prop where
  eq_apply : alt = { apply thm s.rule s.head s.span alt.args with edits := alt.edits }
  usesHole : alt.usesHole = true ↔ ∃ a ∈ alt.args, a.holes ≠ []

theorem WellFormed.reapplied {scope : List Decl} (hs : s.WellFormed scope thm) (hr : s.rule.WellFormed before)
    (hτ : τ.OnWords) (hconst : ∀ x ∈ s.rule.constants, τ.get? x = none)
    (h : instantiate? thm holes s τ = some alt) : s.Reapplied thm alt := by
  have hterm : ∀ t ∈ s.rule.targets ++ s.rule.assumptions,
      (t.subst (.ofArgs s.rule.params s.args)).subst τ =
        t.subst (.ofArgs s.rule.params (s.args.map (Term.subst τ))) := by
    intro t ht
    have hcomplete : t.Complete before s.rule.params :=
      (List.mem_append.1 ht).elim (hr.targets t) (hr.assumptions t)
    refine hcomplete.subst_ofArgs_subst hr.params hs.args hτ fun l hl hdecl => ?_
    exact hconst _ (Rule.key_mem_constants ht hl hdecl)
  have hmap : ∀ ts ⊆ s.rule.targets ++ s.rule.assumptions,
      (ts.map (Term.subst (.ofArgs s.rule.params s.args))).map (Term.subst τ) =
        ts.map (Term.subst (.ofArgs s.rule.params (s.args.map (Term.subst τ)))) := by
    intro ts hts
    rw [List.map_map]
    exact List.map_congr_left fun t ht => hterm t (hts ht)
  have htargets : s.targets = s.rule.targets.map (Term.subst (.ofArgs s.rule.params s.args)) :=
    congrArg targets hs.eq_apply
  have hassumptions : s.assumptions = s.rule.assumptions.map (Term.subst (.ofArgs s.rule.params s.args)) :=
    congrArg assumptions hs.eq_apply
  have hdistinct : s.distinct.reinstantiate τ =
      .instantiate s.rule.groups (.ofArgs s.rule.params (s.args.map (Term.subst τ))) := by
    have heq : s.distinct = .instantiate s.rule.groups (.ofArgs s.rule.params s.args) :=
      congrArg distinct hs.eq_apply
    rw [heq, Distinct.reinstantiate_instantiate _ _ hτ, ← Subst.map_ofArgs]
    rfl
  have halt := eq_of_instantiate? h
  rw [htargets, hmap _ (List.subset_append_left ..), hassumptions, hmap _ (List.subset_append_right ..),
    hdistinct] at halt
  constructor
  · rw [halt]
    rfl
  · rw [halt]
    simp [Term.hasHole_eq_false, ← Bool.not_eq_false]

/-- What a rule without holes says of arguments has no holes but theirs. -/
theorem WellFormed.holesIn {scope : List Decl} {P : String → Prop} (hs : s.WellFormed scope thm)
    (hr : s.rule.WellFormed before) (hargs : ∀ a ∈ s.args, a.HolesIn P) :
    (∀ t ∈ s.targets, t.HolesIn P) ∧ ∀ t ∈ s.assumptions, t.HolesIn P := by
  have hsubst : ∀ t : Term, t.Complete before s.rule.params →
      (t.subst (.ofArgs s.rule.params s.args)).HolesIn P := by
    refine fun t ht => ht.holesIn.subst fun x a ha => hargs a ?_
    exact (List.of_mem_zip (NameMap.mem_of_get?_ofList ha)).2
  rw [hs.eq_apply]
  exact ⟨List.forall_mem_map.2 fun t ht => hsubst t (hr.targets t ht),
    List.forall_mem_map.2 fun t ht => hsubst t (hr.assumptions t ht)⟩

end Step

/-! ### Tables -/

/-- Declared at some point, after declarations whose names are words. -/
def Decl.Introduced (d : Decl) : Prop := ∃ before, d.WellFormed before ∧ ∀ e ∈ before, IsWord e.name.text

/-- What checking a text gives, with such tables as imports. -/
inductive Table.Checked : Table → Prop where
  | check {imports : List Table} (searchLimit : Nat) (text : String) :
    (∀ T ∈ imports, T.Checked) → Table.Checked (Document.check imports searchLimit text).table

theorem Decl.Introduced.isWord_type {d : Decl} (h : d.Introduced) {p : Param} (hp : p ∈ d.params) :
    IsWord p.type.text := by
  obtain ⟨before, hwf, hwords⟩ := h
  obtain ⟨e, he, hname⟩ := hwf.isType hp
  rw [← hname]
  exact hwords _ he

namespace Document

variable {imports : List Table} {searchLimit i : Nat} {text : String}

theorem introduced_scopeAt {d : Decl} (himports : ∀ e ∈ imports.flatMap (·.decls), e.Introduced)
    (h : (check imports searchLimit text).decls[i]? = some d) :
    d.Introduced ∧ ∀ e ∈ (scopeAt imports searchLimit text i).decls, e.Introduced := by
  obtain ⟨hscope, hd⟩ := wellFormed_scopeAt h
  have hwords : ∀ e ∈ (scopeAt imports searchLimit text i).decls, IsWord e.name.text := by
    intro e he
    rcases List.mem_append.1 he with he | he
    · obtain ⟨before, hwf, -⟩ := himports e he
      exact hwf.newName.word
    · exact (hscope.nodup_names.2 e he).word
  refine ⟨⟨_, hd, hwords⟩, fun e he => ?_⟩
  rcases List.mem_append.1 he with he | he
  · exact himports e he
  · obtain ⟨before, after, hsplit, -, hwf⟩ := hscope.exists_before he
    refine ⟨_, hwf, fun e he => hwords e ?_⟩
    rw [Scope.decls, hsplit, ← List.append_assoc]
    exact List.mem_append_left _ he

end Document

theorem Table.Checked.introduced {T : Table} (h : T.Checked) : ∀ d ∈ T.decls, d.Introduced := by
  induction h with
  | check searchLimit text _ ih =>
    intro d hd
    obtain ⟨i, hi⟩ := List.mem_iff_getElem?.1 hd
    refine (Document.introduced_scopeAt (fun e he => ?_) hi).1
    obtain ⟨T, hT, he⟩ := List.mem_flatMap.1 he
    exact ih T hT e he

/-! ### Theorems -/

/-- No hole in the proof has the name of a constant in a rule that the proof applies. -/
def Thm.ConstantsApart (t : Thm) : Prop :=
  ∀ s ∈ t.proof, ∀ a ∈ s.args, ∀ h ∈ a.holes, ∀ s' ∈ t.proof, h.key ∉ s'.rule.constants

instance (t : Thm) : Decidable t.ConstantsApart := inferInstanceAs (Decidable (∀ s ∈ t.proof, _))

theorem Thm.reapplied_prove {scope : Scope} {rule : Rule} {proof : List Expr}
    (hscope : ∀ d ∈ scope.decls, d.Introduced) (hrule : rule.WellFormed scope.decls)
    (hwords : ∀ e ∈ proof, ∀ r ∈ e.heads, IsWord r.text)
    (hapart : (prove scope rule proof).value.ConstantsApart) :
    ∀ s ∈ (prove scope rule proof).value.checked, ∀ alt ∈ s.alternatives, s.toStep.Reapplied rule alt := by
  let P : String → Prop := fun v =>
    ∃ s ∈ (prove scope rule proof).value.proof, ∃ a ∈ s.args, ∃ h ∈ a.holes, h.key = v
  have hsteps : ∀ s ∈ (prove scope rule proof).value.proof, s.WellFormed scope.decls rule :=
    (Thm.yields_prove scope rule proof).2.1
  have hrules : ∀ s ∈ (prove scope rule proof).value.proof, ∃ before, s.rule.WellFormed before := by
    intro s hs
    obtain ⟨d, hd, -, hr⟩ := (hsteps s hs).rule
    obtain ⟨before, hwf, -⟩ := hscope d hd
    exact ⟨before, hwf.rule hr⟩
  have hin : ∀ s ∈ (prove scope rule proof).value.proof,
      (∀ t ∈ s.targets, t.HolesIn P) ∧ ∀ t ∈ s.assumptions, t.HolesIn P := by
    intro s hs
    obtain ⟨before, hr⟩ := hrules s hs
    exact (hsteps s hs).holesIn hr fun a ha h hh => ⟨s, hs, a, ha, h, hh, rfl⟩
  intro s hs alt halt
  obtain ⟨hgoals, halts⟩ := goals_prove hs
  replace hs := mem_proof_of_mem_checked hs
  obtain ⟨τ, hτ, hsome⟩ := List.mem_filterMap.1 (halts alt halt)
  have hτ : τ.HolesIn P := by
    refine Candidate.holesIn hτ (fun g hg => ?_) (hin _ hs).1 (hin _ hs).2 fun t ht =>
      (hrule.assumptions t ht).holesIn
    rcases hgoals g hg with hg | ⟨c, hc, hg⟩
    · exact (hrule.targets g hg).holesIn
    · exact (hin c hc).2 g hg
  obtain ⟨before, hr⟩ := hrules _ hs
  refine (hsteps _ hs).reapplied hr (fun v hv => ?_) (fun x hx => ?_) hsome
  · obtain ⟨r, hr⟩ := Option.isSome_iff_exists.1 hv
    obtain ⟨s', hs', a, ha, h, hh, rfl⟩ := (hτ v r hr).1
    obtain ⟨hole, hmem, rfl⟩ := (hygienic_prove scope rule proof).created s' hs' a ha h hh
    exact isWord_name_of_mem_created (fun d hd p hp => (hscope d hd).isWord_type hp) hwords hmem
  · refine Option.not_isSome_iff_eq_none.1 fun hv => ?_
    obtain ⟨r, hr⟩ := Option.isSome_iff_exists.1 hv
    obtain ⟨s', hs', a, ha, h, hh, rfl⟩ := (hτ x r hr).1
    exact hapart s' hs' a ha h hh _ hs hx

namespace Document

/-- An alternative says what its rule says of the arguments of the alternative. -/
theorem reapplied_alternatives {imports : List Table} {searchLimit : Nat} {text : String} {i : Nat} {t : Thm}
    (himports : ∀ T ∈ imports, T.Checked)
    (ht : (check imports searchLimit text).decls[i]? = some (.thm t)) (hapart : t.ConstantsApart) :
    t.Aligned ∧ ∀ s ∈ t.checked, ∀ alt ∈ s.alternatives, s.toStep.Reapplied t.rule alt := by
  obtain ⟨b, hb, -, hprove⟩ := exists_block_of_thm ht
  obtain ⟨-, hrule, -, haligned⟩ := wellFormed_scopeAt ht
  have hwords : ∀ e ∈ b.proof, ∀ r ∈ e.heads, IsWord r.text := fun e he r hr =>
    ((Block.readFrom_of_mem_readAll hb).2 e he r hr).isWord
  have himports : ∀ e ∈ imports.flatMap (·.decls), e.Introduced := by
    intro e he
    obtain ⟨T, hT, he⟩ := List.mem_flatMap.1 he
    exact (himports T hT).introduced e he
  rw [← hprove] at hapart
  have hreapplied := Thm.reapplied_prove (introduced_scopeAt himports ht).2 hrule hwords hapart
  rw [hprove] at hreapplied
  exact ⟨haligned, hreapplied⟩

/-- An argument is missing, and what it has to be brings in what it must be distinct from. -/
def separated : String :=
  "type W S term W c term W f(S s, W v) axiom a(S s, W v) { diff (s v) |- f(s, v) -| f(s, c) }
    thm t(S x, W w) { |- f(x, f(x, w)) } = { a(x) }"

theorem reapplied_alternatives_separated : ∃ t, (check [] 5 separated).decls[5]? = some (.thm t) ∧
    t.ConstantsApart ∧ ∃ s ∈ t.checked, ∃ alt ∈ s.alternatives, s.rule.constants = ["c"] ∧
      Term.keys alt.args = ["x", "f(x,w)"] ∧ alt.violations = [("w", "x"), ("x", "x")] ∧
      s.toStep.Reapplied t.rule alt := by
  have hthm : ∃ t, (check [] 5 separated).decls[5]? = some (.thm t) ∧ t.ConstantsApart ∧
      ∃ s ∈ t.checked, ∃ alt ∈ s.alternatives, s.rule.constants = ["c"] ∧
        Term.keys alt.args = ["x", "f(x,w)"] ∧ alt.violations = [("w", "x"), ("x", "x")] :=
    Decl.exists_thm_of_any (by decide +kernel)
  obtain ⟨t, ht, hapart, s, hs, alt, halt, hconstants, hkeys, hviolations⟩ := hthm
  have hreapplied := (reapplied_alternatives (List.forall_mem_nil _) ht hapart).2 s hs alt halt
  exact ⟨t, ht, hapart, s, hs, alt, halt, hconstants, hkeys, hviolations, hreapplied⟩

/-- The name that is made up for a missing argument is that of a constant in the rule. -/
def capturedInRule : String :=
  "type W term W ?W0 term W f(W s, W v) axiom a(W v) { |- f(?W0, v) }
    thm t(W w) { |- f(?W0, w) } = { a }"

/-- An alternative that says `f(w,w)` where its rule says `f(?W0,w)`. -/
theorem not_reapplied_capturedInRule : ∃ t, (check [] 5 capturedInRule).decls[4]? = some (.thm t) ∧
    ∃ s ∈ t.checked, ∃ alt ∈ s.alternatives, ¬s.toStep.Reapplied t.rule alt := by
  have hthm : ∃ t, (check [] 5 capturedInRule).decls[4]? = some (.thm t) ∧
      ∃ s ∈ t.checked, ∃ alt ∈ s.alternatives,
        Term.keys alt.targets ≠ Term.keys (Step.apply t.rule s.rule s.head s.span alt.args).targets :=
    Decl.exists_thm_of_any (by decide +kernel)
  obtain ⟨t, ht, s, hs, alt, halt, hkeys⟩ := hthm
  refine ⟨t, ht, s, hs, alt, halt, fun h => hkeys ?_⟩
  have htargets := congrArg Step.targets h.eq_apply
  exact congrArg Term.keys htargets

end Document

end Sequitur
