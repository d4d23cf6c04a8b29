import Sequitur.Proofs.WellFormed

/-!
# Derivations

`Derivable` is the calculus that proofs are about: its only rules are the instances of declared axioms
by complete terms of the types of their parameters. Terms count up to the places where they were
written. Distinctness conditions are left aside.

A derivation can be instantiated, its hypotheses being derived in turn (`Derivable.graft`). So a
theorem that is derivable from its assumptions can be used like an axiom and expanded away
(`Rule.admissible_of_derivable`).
-/

namespace Sequitur

/-- `t` follows from `hyps` over the parameters `params`. -/
inductive Derivable (decls : List Decl) (params : List Param) (hyps : List Term) : Term → Prop where
  | hyp {h t : Term} : h ∈ hyps → h.bare = t.bare → Derivable decls params hyps t
  | axm {r : Rule} {args : List Term} {target t : Term} : .axm r ∈ decls →
    IsInstance decls params r.params args →
    (∀ a ∈ r.assumptions, Derivable decls params hyps (a.graft (.ofArgs r.params args))) →
    target ∈ r.targets → (target.graft (.ofArgs r.params args)).bare = t.bare →
    Derivable decls params hyps t

variable {decls decls' : List Decl} {params wants ps : List Param} {args args' hyps hyps' : List Term}
variable {s t : Term}

theorem Derivable.of_bare_eq (h : Derivable decls params hyps s) (he : s.bare = t.bare) :
    Derivable decls params hyps t := by
  cases h with
  | hyp hm hs => exact .hyp hm (hs.trans he)
  | axm hr hargs hassumptions htarget hs => exact .axm hr hargs hassumptions htarget (hs.trans he)

/-! ### Instances of instances -/

theorem Subst.map_ofArgs (f : Term → Term) :
    ((ofArgs params args).map fun _ => f) = ofArgs params (args.map f) := by
  rw [ofArgs, NameMap.map_ofList, ofArgs, List.zip_map_right]
  rfl

/-- Arguments for `ps` over `wants`, where those are replaced by arguments over `params`. -/
theorem IsInstance.graft (h : IsInstance decls wants ps args) (hn : (wants.map (·.name.text)).Nodup)
    (hd : decls ⊆ decls') (hargs : IsInstance decls' params wants args') :
    IsInstance decls' params ps (args.map (Term.graft (.ofArgs wants args'))) := by
  have hgraft : ∀ a ∈ args, (a.graft (.ofArgs wants args')).type = a.type ∧
      (a.graft (.ofArgs wants args')).Complete decls' params := fun a ha =>
    Term.Complete.graft ⟨h.fits.wellTyped_of_mem ha, h.noHoles a ha⟩ hn hd hargs
  refine ⟨h.fits.map fun a ha _ => ⟨(hgraft a ha).1, (hgraft a ha).2.wellTyped⟩, fun b hb => ?_⟩
  obtain ⟨a, ha, rfl⟩ := List.mem_map.1 hb
  exact (hgraft a ha).2.noHole

theorem Term.Complete.graft_graft (h : t.Complete decls ps) (hn : (ps.map (·.name.text)).Nodup)
    (hargs : IsInstance decls' wants ps args) (σ : Subst) :
    (t.graft (.ofArgs ps args)).graft σ = t.graft (.ofArgs ps (args.map (Term.graft σ))) := by
  rw [← Subst.map_ofArgs]
  refine Term.graft_graft (fun x hx => ?_) fun x hx => ?_
  · obtain ⟨p, hp, rfl⟩ := h.wellTyped.exists_of_mem_varNames hx
    obtain ⟨s, hs, -⟩ := hargs.exists_get?_ofArgs hn hp
    rw [hs]
    rfl
  · rw [Term.hasHole_eq_false.1 h.noHole] at hx
    exact absurd hx List.not_mem_nil

/-! ### What well-formed tables give -/

theorem Decl.WellFormed.newName {before : List Decl} {d : Decl} (h : d.WellFormed before) :
    NewName before d.name.text := by
  cases d with
  | type d => exact h
  | term d => exact h.name
  | axm r => exact h.name
  | thm t => exact h.1.name

theorem Decl.WellFormed.rule {before : List Decl} {d : Decl} {r : Rule} (h : d.WellFormed before)
    (hr : d.rule? = some r) : r.WellFormed before := by
  cases d with
  | type d => exact absurd hr nofun
  | term d => exact absurd hr nofun
  | axm r =>
    cases hr
    exact h
  | thm t =>
    cases hr
    exact h.1

theorem InOrder.exists_before {P : List Decl → Decl → Prop} {base ds : List Decl} {d : Decl}
    (h : InOrder P base ds) (hd : d ∈ ds) : ∃ before after, ds = before ++ d :: after ∧
      InOrder P base before ∧ P (base ++ before) d := by
  obtain ⟨before, after, rfl⟩ := List.append_of_mem hd
  obtain ⟨hbefore, hd, -⟩ := inOrder_append.1 h
  exact ⟨before, after, rfl, hbefore, hd⟩

theorem InOrder.nodup_names {base ds : List Decl} (h : InOrder Decl.WellFormed base ds) :
    (ds.map (·.name.text)).Nodup ∧ ∀ d ∈ ds, NewName base d.name.text := by
  induction ds generalizing base with
  | nil => exact ⟨List.nodup_nil, nofun⟩
  | cons d ds ih =>
    obtain ⟨hd, hds⟩ := h
    obtain ⟨hnodup, hnew⟩ := ih hds
    refine ⟨List.nodup_cons.2 ⟨fun hm => ?_, hnodup⟩, List.forall_mem_cons.2 ⟨hd.newName, fun e he => ?_⟩⟩
    · obtain ⟨e, he, hname⟩ := List.mem_map.1 hm
      exact (hnew e he).fresh d (by simp) hname.symm
    · exact ⟨(hnew e he).word, (hnew e he).ne_diff, fun c hc => (hnew e he).fresh c (by simp [hc])⟩

theorem ParamsOk.namesApart (h : ParamsOk decls params) (hwf : InOrder Decl.WellFormed [] decls) :
    NamesApart decls params where
  declNames := hwf.nodup_names.1
  paramNames := h.nodup
  apart p hp := (h.names p hp).fresh
  declWords d hd := (hwf.nodup_names.2 d hd).word
  paramWords p hp := (h.names p hp).word

/-! ### Instances of derivations -/

theorem Derivable.graft (hwf : InOrder Decl.WellFormed [] decls) (hd : decls ⊆ decls')
    (hn : (wants.map (·.name.text)).Nodup) (hargs : IsInstance decls' params wants args)
    (hhyps : ∀ h ∈ hyps, Derivable decls' params hyps' (h.graft (.ofArgs wants args)))
    (h : Derivable decls wants hyps t) : Derivable decls' params hyps' (t.graft (.ofArgs wants args)) := by
  induction h with
  | hyp hm he => exact (hhyps _ hm).of_bare_eq (by rw [Term.bare_graft, Term.bare_graft, he])
  | @axm r rargs target t hr hrargs hassumptions htarget he ih =>
    obtain ⟨before, after, rfl, -, hrule⟩ := hwf.exists_before hr
    have hrn := hrule.params.nodup
    refine .axm (hd hr) (hrargs.graft hn hd hargs) (fun a ha => ?_) htarget ?_
    · rw [← (hrule.assumptions a ha).graft_graft hrn hrargs]
      exact ih a ha
    · rw [← (hrule.targets target htarget).graft_graft hrn hrargs, Term.bare_graft, he, Term.bare_graft]

/-- The rule holds in the calculus: instances of its targets follow from those of its assumptions. -/
def Rule.Admissible (decls : List Decl) (r : Rule) : Prop :=
  ∀ params hyps args, IsInstance decls params r.params args →
    (∀ a ∈ r.assumptions, Derivable decls params hyps (a.graft (.ofArgs r.params args))) →
    ∀ t ∈ r.targets, Derivable decls params hyps (t.graft (.ofArgs r.params args))

theorem Rule.admissible_of_axm {r : Rule} (hr : .axm r ∈ decls) : r.Admissible decls :=
  fun _ _ _ hargs hassumptions _ ht => .axm hr hargs hassumptions ht rfl

theorem Rule.admissible_of_derivable {r : Rule} (hwf : InOrder Decl.WellFormed [] decls) (hd : decls ⊆ decls')
    (hr : r.WellFormed decls) (h : ∀ t ∈ r.targets, Derivable decls r.params r.assumptions t) :
    r.Admissible decls' :=
  fun _ _ _ hargs hassumptions t ht => (h t ht).graft hwf hd hr.params.nodup hargs hassumptions

end Sequitur
