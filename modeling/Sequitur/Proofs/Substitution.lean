import Mathlib.Data.List.Basic
import Sequitur.Proofs.Trees

/-!
# Substitution of words

`Term.subst` looks up the keys of all subterms. Where it only has words to look up, it never meets
the key of an application to arguments, so it acts on leaves: the leaves of the result are those of
the replaced leaves (`leaves_subst`). If it also leaves the declared names of a term alone, it is the
replacement of parameters and holes by terms, here `Term.graft` (`subst_eq_graft`), and grafting
is what composes (`graft_graft`).
-/

namespace Sequitur

/-- Only words are mapped. -/
def Subst.OnWords (σ : Subst) : Prop := ∀ x, (σ.get? x).isSome → IsWord x

namespace Term

variable {σ τ : Subst}

theorem get?_key_app (hσ : σ.OnWords) {head : Token.Ref} {span : Span} {decl : TermDecl}
    {args : List Term} (h : args ≠ []) : σ.get? (key (.app head span decl args)) = none := by
  refine Option.not_isSome_iff_eq_none.1 fun hs => ?_
  exact not_isWord_key_app h (hσ _ hs)

theorem subst_app_of_ne_nil (hσ : σ.OnWords) (head : Token.Ref) (span : Span) (decl : TermDecl)
    {args : List Term} (h : args ≠ []) :
    subst σ (.app head span decl args) = .app head span decl (args.map (subst σ)) := by
  rw [subst_app, get?_key_app hσ h, Option.getD_none]

/-! ### Leaves -/

theorem leaves_app_nil (head : Token.Ref) (span : Span) (decl : TermDecl) :
    leaves (.app head span decl []) = [.app head span decl []] := by
  rw [leaves]

theorem leaves_app_of_ne_nil (head : Token.Ref) (span : Span) (decl : TermDecl) {args : List Term}
    (h : args ≠ []) : leaves (.app head span decl args) = args.flatMap leaves := by
  obtain ⟨a, as, rfl⟩ := List.exists_cons_of_ne_nil h
  rw [leaves, leavesAll_eq_flatMap, List.flatMap_cons]

theorem leaves_subst (hσ : σ.OnWords) (t : Term) :
    (t.subst σ).leaves = t.leaves.flatMap fun l => (l.subst σ).leaves := by
  induction t using Term.ind with
  | var head span param => simp [leaves]
  | hole head span param => simp [leaves]
  | app head span decl args ih =>
    by_cases h : args = []
    · subst h
      rw [leaves_app_nil, List.flatMap_singleton]
    · have hm : args.map (subst σ) ≠ [] := by simpa using h
      rw [subst_app_of_ne_nil hσ head span decl h, leaves_app_of_ne_nil _ _ _ hm,
        leaves_app_of_ne_nil _ _ _ h, List.flatMap_map, List.flatMap_assoc]
      exact List.flatMap_congr fun a ha => ih a ha

theorem mem_leafNames {t : Term} {x : String} : x ∈ t.leafNames ↔ ∃ l ∈ t.leaves, l.key = x := by
  rw [leafNames, NameSet.mem_ofList, keys_eq_map, List.mem_map]

theorem mem_leafNames_subst (hσ : σ.OnWords) {t : Term} {x : String} :
    x ∈ (t.subst σ).leafNames ↔ ∃ l ∈ t.leaves, x ∈ (l.subst σ).leafNames := by
  rw [mem_leafNames, leaves_subst hσ]
  constructor
  · rintro ⟨l, hl, hx⟩
    obtain ⟨m, hm, hl⟩ := List.mem_flatMap.1 hl
    exact ⟨m, hm, mem_leafNames.2 ⟨l, hl, hx⟩⟩
  · rintro ⟨m, hm, hx⟩
    obtain ⟨l, hl, hx⟩ := mem_leafNames.1 hx
    exact ⟨l, List.mem_flatMap.2 ⟨m, hm, hl⟩, hx⟩

/-! ### Grafting -/

mutual
/-- Puts terms in the place of parameters and holes. -/
def graft (σ : Subst) : Term → Term
  | .var head span param => (σ.get? param.name.text).getD (.var head span param)
  | .hole head span param => (σ.get? head.text).getD (.hole head span param)
  | .app head span decl args => .app head span decl (graftAll σ args)
def graftAll (σ : Subst) : List Term → List Term
  | [] => []
  | t :: ts => graft σ t :: graftAll σ ts
end

mutual
/-- The names of parameters in a term. -/
def varNames : Term → List String
  | .var _ _ param => [param.name.text]
  | .hole .. => []
  | .app _ _ _ args => varNamesAll args
def varNamesAll : List Term → List String
  | [] => []
  | t :: ts => varNames t ++ varNamesAll ts
end

mutual
/-- The names of declared terms in a term. -/
def declNames : Term → List String
  | .var .. | .hole .. => []
  | .app _ _ decl args => decl.name.text :: declNamesAll args
def declNamesAll : List Term → List String
  | [] => []
  | t :: ts => declNames t ++ declNamesAll ts
end

theorem graftAll_eq_map (σ : Subst) (ts : List Term) : graftAll σ ts = ts.map (graft σ) := by
  induction ts with
  | nil => rfl
  | cons t ts ih => simp [graftAll, ih]

theorem varNamesAll_eq_flatMap (ts : List Term) : varNamesAll ts = ts.flatMap varNames := by
  induction ts with
  | nil => rfl
  | cons t ts ih => simp [varNamesAll, ih]

theorem declNamesAll_eq_flatMap (ts : List Term) : declNamesAll ts = ts.flatMap declNames := by
  induction ts with
  | nil => rfl
  | cons t ts ih => simp [declNamesAll, ih]

@[simp] theorem graft_var (σ : Subst) (head : Token.Ref) (span : Span) (param : Param) :
    graft σ (.var head span param) = (σ.get? param.name.text).getD (.var head span param) := rfl

@[simp] theorem graft_hole (σ : Subst) (head : Token.Ref) (span : Span) (param : Param) :
    graft σ (.hole head span param) = (σ.get? head.text).getD (.hole head span param) := rfl

@[simp] theorem graft_app (σ : Subst) (head : Token.Ref) (span : Span) (decl : TermDecl)
    (args : List Term) :
    graft σ (.app head span decl args) = .app head span decl (args.map (graft σ)) := by
  rw [graft, graftAll_eq_map]

@[simp] theorem varNames_app (head : Token.Ref) (span : Span) (decl : TermDecl) (args : List Term) :
    varNames (.app head span decl args) = args.flatMap varNames := by
  rw [varNames, varNamesAll_eq_flatMap]

@[simp] theorem declNames_app (head : Token.Ref) (span : Span) (decl : TermDecl) (args : List Term) :
    declNames (.app head span decl args) = decl.name.text :: args.flatMap declNames := by
  rw [declNames, declNamesAll_eq_flatMap]

theorem subst_eq_graft (hσ : σ.OnWords) {t : Term} (h : ∀ x ∈ t.declNames, σ.get? x = none) :
    t.subst σ = t.graft σ := by
  induction t using Term.ind with
  | var head span param => rfl
  | hole head span param => rfl
  | app head span decl args ih =>
    rw [declNames_app] at h
    have hkey : σ.get? (key (.app head span decl args)) = none := by
      by_cases hn : args = []
      · subst hn
        exact h decl.name.text (List.mem_cons_self ..)
      · exact get?_key_app hσ hn
    rw [subst_app, hkey, Option.getD_none, graft_app]
    refine congrArg _ (List.map_congr_left fun a ha => ih a ha fun x hx => h x ?_)
    exact List.mem_cons_of_mem _ (List.mem_flatMap.2 ⟨a, ha, hx⟩)

/-- Grafting one after the other, where the first map covers all parameters and holes of a term. -/
theorem graft_graft {t : Term} (hv : ∀ x ∈ t.varNames, (σ.get? x).isSome)
    (hh : ∀ x ∈ t.holes.map key, (σ.get? x).isSome) :
    (t.graft σ).graft τ = t.graft (σ.map fun _ s => s.graft τ) := by
  induction t using Term.ind with
  | var head span param =>
    obtain ⟨s, hs⟩ := Option.isSome_iff_exists.1 (hv _ (List.mem_cons_self ..))
    simp [hs]
  | hole head span param =>
    obtain ⟨s, hs⟩ := Option.isSome_iff_exists.1 (hh _ (List.mem_cons_self ..))
    rw [key_hole] at hs
    simp [hs]
  | app head span decl args ih =>
    simp only [graft_app, List.map_map]
    refine congrArg _ (List.map_congr_left fun a ha => ih a ha (fun x hx => hv x ?_) fun x hx => hh x ?_)
    · rw [varNames_app]
      exact List.mem_flatMap.2 ⟨a, ha, hx⟩
    · rw [holes_app, List.map_flatMap]
      exact List.mem_flatMap.2 ⟨a, ha, hx⟩

end Term

end Sequitur
