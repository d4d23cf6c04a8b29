import Mathlib.Data.List.Basic
import Sequitur.Proofs.Names
import Sequitur.Proofs.Relocation
import Sequitur.Proofs.Trees
import Sequitur.Table

/-!
# Declarations up to places

Things are alike if they agree once places are forgotten and templates changed in some way (`Alike`).
With `id` for the change they have the same templates, and with a constant their templates play no
role. Keys and substitution are the same for terms that are alike, and so are texts if templates are
kept. Two scopes agree if each name finds what is alike in both (`Scope.Agree`).

What is offered to whoever writes a proof depends on places, such as changes to earlier lines, and is
left out here (`Decl.unplaced`). No later block looks at it.

`Noted.Matches` relates two computations, the notes of one being those of the other, moved.
-/

namespace Sequitur

open Placed (relocate)

variable {α β γ δ : Type} {φ : Relocation} {ρ : Template → Template}

/-! ### Terms -/

instance : Placed TypeDecl := ⟨fun φ d => ⟨relocate φ d.name, relocate φ d.span⟩⟩

instance : Placed TermDecl :=
  ⟨fun φ d => ⟨relocate φ d.type, relocate φ d.name, relocate φ d.params, φ.template d.template,
    relocate φ d.span⟩⟩

mutual
def Term.move (φ : Relocation) : Term → Term
  | .var head span param => .var (relocate φ head) (relocate φ span) (relocate φ param)
  | .hole head span param => .hole (relocate φ head) (relocate φ span) (relocate φ param)
  | .app head span decl args =>
    .app (relocate φ head) (relocate φ span) (relocate φ decl) (moveAll φ args)
def Term.moveAll (φ : Relocation) : List Term → List Term
  | [] => []
  | t :: ts => move φ t :: moveAll φ ts
end

instance : Placed Term := ⟨Term.move⟩

instance : Placed Rule :=
  ⟨fun φ r => ⟨relocate φ r.name, relocate φ r.params, relocate φ r.targets, relocate φ r.assumptions,
    r.groups, relocate φ r.span⟩⟩

namespace Term

theorem moveAll_eq (ts : List Term) : moveAll φ ts = relocate φ ts := by
  induction ts with
  | nil => rfl
  | cons t ts ih => exact congrArg _ ih

@[simp] theorem relocate_var (head : Token.Ref) (span : Span) (param : Param) :
    relocate φ (Term.var head span param) = .var (relocate φ head) (relocate φ span) (relocate φ param) :=
  rfl

@[simp] theorem relocate_app (head : Token.Ref) (span : Span) (decl : TermDecl) (args : List Term) :
    relocate φ (Term.app head span decl args) =
      .app (relocate φ head) (relocate φ span) (relocate φ decl) (relocate φ args) := by
  rw [← moveAll_eq]
  rfl

@[simp] theorem key_relocate (t : Term) : (relocate φ t).key = t.key := by
  induction t using ind with
  | var | hole => rfl
  | app head span decl args ih => rw [relocate_app, key_app, key_app, map_relocate ih]; rfl

@[simp] theorem keys_relocate (ts : List Term) : keys (relocate φ ts) = keys ts := by
  rw [keys_eq_map, keys_eq_map, map_relocate fun t _ => key_relocate t]

theorem text_relocate (hφ : φ.template = id) (t : Term) : (relocate φ t).text = t.text := by
  induction t using ind with
  | var | hole => rfl
  | app head span decl args ih =>
    have htemplate : (relocate φ decl).template = decl.template := congrFun hφ decl.template
    rw [relocate_app, text, text, texts_eq_map, texts_eq_map, map_relocate ih, htemplate]

theorem texts_relocate (hφ : φ.template = id) (ts : List Term) : texts (relocate φ ts) = texts ts := by
  rw [texts_eq_map, texts_eq_map, map_relocate fun t _ => text_relocate hφ t]

@[simp] theorem type_relocate (t : Term) : (relocate φ t).type = t.type := by
  cases t <;> rfl

theorem leaves_relocate (t : Term) : (relocate φ t).leaves = relocate φ t.leaves := by
  induction t using ind with
  | var | hole => rfl
  | app head span decl args ih =>
    cases args with
    | nil => rfl
    | cons a as =>
      have hall : ∀ ts : List Term, (∀ t ∈ ts, (relocate φ t).leaves = relocate φ t.leaves) →
          leavesAll (relocate φ ts) = relocate φ (leavesAll ts) := by
        intro ts hts
        induction ts with
        | nil => rfl
        | cons t ts ih =>
          obtain ⟨ht, hts⟩ := List.forall_mem_cons.1 hts
          rw [relocate_cons, leavesAll, leavesAll, ht, ih hts, relocate_append]
      rw [relocate_app, relocate_cons, leaves, leaves, ← leavesAll, ← leavesAll]
      exact hall (a :: as) ih

theorem holes_relocate (t : Term) : (relocate φ t).holes = relocate φ t.holes := by
  induction t using ind with
  | var | hole => rfl
  | app head span decl args ih =>
    rw [relocate_app, holes_app, holes_app, relocate_eq_map, relocate_eq_map, List.flatMap_map, List.map_flatMap]
    exact List.flatMap_congr ih

@[simp] theorem hasHole_relocate (t : Term) : (relocate φ t).hasHole = t.hasHole := by
  rw [hasHole, hasHole, holes_relocate, isEmpty_relocate]

@[simp] theorem leafNames_relocate (t : Term) : (relocate φ t).leafNames = t.leafNames := by
  rw [leafNames, leafNames, leaves_relocate, keys_relocate]

end Term

/-- A substitution with the places of its terms moved. -/
def Subst.move (φ : Relocation) (σ : Subst) : Subst := σ.map fun _ => relocate φ

namespace Term

theorem subst_relocate (σ : Subst) (t : Term) :
    (relocate φ t).subst (σ.move φ) = relocate φ (t.subst σ) := by
  have hget : ∀ x t, ((Subst.move φ σ).get? x).getD (relocate φ t) = relocate φ ((σ.get? x).getD t) := by
    intro x t
    rw [Subst.move, NameMap.get?_map]
    cases σ.get? x <;> rfl
  induction t using ind with
  | var head span param => exact hget _ _
  | hole head span param => exact hget _ _
  | app head span decl args ih =>
    have hargs : (relocate φ args).map (subst (σ.move φ)) = relocate φ (args.map (subst σ)) := by
      rw [relocate_eq_map, relocate_eq_map, List.map_map, List.map_map]
      exact List.map_congr_left ih
    rw [subst_app, ← hget, relocate_app, subst_app, hargs, ← relocate_app, ← relocate_app, key_relocate]

theorem substAll_relocate (σ : Subst) (ts : List Term) :
    (relocate φ ts).map (subst (σ.move φ)) = relocate φ (ts.map (subst σ)) := by
  rw [relocate_eq_map, relocate_eq_map, List.map_map, List.map_map]
  exact List.map_congr_left fun t _ => subst_relocate σ t

end Term

/-! ### What is alike -/

/-- Equal up to places and what `ρ` makes of templates. -/
def Alike (ρ : Template → Template) [Placed α] (a b : α) : Prop :=
  relocate (.forget ρ) a = relocate (.forget ρ) b

section

variable [Placed α]

theorem alike_cons {a b : α} {as bs : List α} : Alike ρ (a :: as) (b :: bs) ↔ Alike ρ a b ∧ Alike ρ as bs := by
  unfold Alike
  rw [relocate_cons, relocate_cons, List.cons.injEq]

theorem alike_append {as bs as' bs' : List α} (ha : Alike ρ as as') (hb : Alike ρ bs bs') :
    Alike ρ (as ++ bs) (as' ++ bs') := by
  unfold Alike at *
  rw [relocate_append, relocate_append, ha, hb]

theorem alike_some {a b : α} : Alike ρ (some a) (some b) ↔ Alike ρ a b := by
  unfold Alike
  rw [relocate_some, relocate_some, Option.some.injEq]

theorem Alike.eq_none {o : Option α} (h : Alike ρ none o) : o = none := by
  cases o with
  | none => rfl
  | some a => exact absurd h (by simp [Alike])

theorem Alike.exists_some {a : α} {o : Option α} (h : Alike ρ (some a) o) : ∃ b, o = some b ∧ Alike ρ a b := by
  cases o with
  | none => exact absurd h (by simp [Alike])
  | some b => exact ⟨b, rfl, alike_some.1 h⟩

theorem Alike.nil_left {as : List α} (h : Alike ρ [] as) : as = [] := by
  cases as with
  | nil => rfl
  | cons a as => exact absurd h (by simp [Alike])

theorem Alike.cons_left {a : α} {as bs : List α} (h : Alike ρ (a :: as) bs) :
    ∃ b bs', bs = b :: bs' ∧ Alike ρ a b ∧ Alike ρ as bs' := by
  cases bs with
  | nil => exact absurd h (by simp [Alike])
  | cons b bs => exact ⟨b, bs, rfl, alike_cons.1 h⟩

theorem Alike.length_eq {as bs : List α} (h : Alike ρ as bs) : as.length = bs.length := by
  rw [← length_relocate as, ← length_relocate bs, h]

/-- What places play no role for gives the same for both. -/
theorem Alike.apply_eq {a b : α} (h : Alike ρ a b) {f : α → β} (hf : ∀ a, f (relocate (.forget ρ) a) = f a) :
    f a = f b := by
  rw [← hf a, ← hf b, h]

end

theorem Token.Ref.alike_iff {r s : Token.Ref} : Alike ρ r s ↔ r.text = s.text := by
  constructor
  · exact fun h => h.apply_eq fun _ => rfl
  · intro h
    show Token.Ref.mk 0 r.text _ = Token.Ref.mk 0 s.text _
    rw [h]
    rfl

theorem Token.Ref.alike_relocate (r : Token.Ref) : Alike ρ r (relocate φ r) := alike_iff.2 rfl

theorem Param.alike_iff {p q : Param} : Alike ρ p q ↔ p.type.text = q.type.text ∧ p.name.text = q.name.text := by
  rw [← Token.Ref.alike_iff (ρ := ρ), ← Token.Ref.alike_iff (ρ := ρ)]
  exact Param.mk.injEq .. ▸ Iff.rfl

theorem Param.alike_relocate (p : Param) : Alike ρ p (relocate φ p) := alike_iff.2 ⟨rfl, rfl⟩

theorem Param.alikeAll_relocate (ps : List Param) : Alike ρ ps (relocate φ ps) := by
  induction ps with
  | nil => rfl
  | cons p ps ih => exact alike_cons.2 ⟨p.alike_relocate, ih⟩

/-! ### Declarations and scopes -/

def Step.unplaced (ρ : Template → Template) (s : Step) : Step :=
  { s with
    head := relocate (.forget ρ) s.head
    args := relocate (.forget ρ) s.args
    span := {}
    rule := relocate (.forget ρ) s.rule
    targets := relocate (.forget ρ) s.targets
    assumptions := relocate (.forget ρ) s.assumptions
    edits := [] }

def Thm.unplaced (ρ : Template → Template) (t : Thm) : Thm :=
  { rule := relocate (.forget ρ) t.rule
    proof := t.proof.map (·.unplaced ρ)
    trace := relocate (.forget ρ) t.trace
    alternatives := []
    nameSuggestions := [] }

/-- A declaration without places, and without what is offered to change in its proof. -/
def Decl.unplaced (ρ : Template → Template) : Decl → Decl
  | .type d => .type (relocate (.forget ρ) d)
  | .term d => .term (relocate (.forget ρ) d)
  | .axm r => .axm (relocate (.forget ρ) r)
  | .thm t => .thm (t.unplaced ρ)

namespace Decl

theorem name_unplaced (d : Decl) : (d.unplaced ρ).name = relocate (.forget ρ) d.name := by
  cases d <;> rfl

theorem name_text_eq {d e : Decl} (h : d.unplaced ρ = e.unplaced ρ) : d.name.text = e.name.text :=
  Token.Ref.alike_iff.1 (by rw [Alike, ← name_unplaced, h, name_unplaced])

/-- What places play no role for gives the same for declarations that are the same up to places. -/
theorem map_eq_of_unplaced {f : Decl → α} (hf : ∀ d, f (d.unplaced ρ) = f d) {ds es : List Decl}
    (h : ds.map (unplaced ρ) = es.map (unplaced ρ)) : ds.map f = es.map f := by
  have hmap : ∀ ds : List Decl, (ds.map (unplaced ρ)).map f = ds.map f := fun ds => by
    rw [List.map_map]
    exact List.map_congr_left fun d _ => hf d
  rw [← hmap ds, h, hmap]

theorem unplaced_type {d : TypeDecl} {e : Decl} (h : unplaced ρ (.type d) = e.unplaced ρ) :
    ∃ d', e = .type d' := by
  cases e with
  | type d' => exact ⟨d', rfl⟩
  | term | axm | thm => exact absurd h (by simp [unplaced])

theorem unplaced_term {d : TermDecl} {e : Decl} (h : unplaced ρ (.term d) = e.unplaced ρ) :
    ∃ d', e = .term d' ∧ Alike ρ d d' := by
  cases e with
  | term d' => exact ⟨d', rfl, Decl.term.inj h⟩
  | type | axm | thm => exact absurd h (by simp [unplaced])

theorem unplaced_axm {r : Rule} {e : Decl} (h : unplaced ρ (.axm r) = e.unplaced ρ) :
    ∃ r', e = .axm r' ∧ Alike ρ r r' := by
  cases e with
  | axm r' => exact ⟨r', rfl, Decl.axm.inj h⟩
  | type | term | thm => exact absurd h (by simp [unplaced])

theorem unplaced_thm {t : Thm} {e : Decl} (h : unplaced ρ (.thm t) = e.unplaced ρ) :
    ∃ t', e = .thm t' ∧ Alike ρ t.rule t'.rule := by
  cases e with
  | thm t' => exact ⟨t', rfl, congrArg Thm.rule (Decl.thm.inj h)⟩
  | type | term | axm => exact absurd h (by simp [unplaced])

end Decl

namespace Scope

/-- A name finds the same in both scopes, up to places. -/
def Agree (ρ : Template → Template) (scope scope' : Scope) : Prop :=
  ∀ x, (scope.find? x).map (Decl.unplaced ρ) = (scope'.find? x).map (Decl.unplaced ρ)

variable {scope scope' : Scope}

theorem Agree.refl (ρ : Template → Template) (scope : Scope) : scope.Agree ρ scope := fun _ => rfl

theorem Agree.find?_none (h : scope.Agree ρ scope') {x : String} (hx : scope.find? x = none) :
    scope'.find? x = none := by
  have hx' := h x
  rw [hx] at hx'
  exact Option.map_eq_none_iff.1 hx'.symm

theorem Agree.find?_some (h : scope.Agree ρ scope') {x : String} {d : Decl} (hx : scope.find? x = some d) :
    ∃ d', scope'.find? x = some d' ∧ d.unplaced ρ = d'.unplaced ρ := by
  have hx' := h x
  rw [hx] at hx'
  obtain ⟨d', hd', he⟩ := Option.map_eq_some_iff.1 hx'.symm
  exact ⟨d', hd', he.symm⟩

theorem Agree.isSome_find? (h : scope.Agree ρ scope') (x : String) :
    (scope'.find? x).isSome = (scope.find? x).isSome := by
  rw [← Option.isSome_map (f := Decl.unplaced ρ), ← h x, Option.isSome_map]

theorem Agree.term? (h : scope.Agree ρ scope') (x : String) : Alike ρ (scope.term? x) (scope'.term? x) := by
  unfold Scope.term?
  cases hx : scope.find? x with
  | none => rw [h.find?_none hx]; rfl
  | some d =>
    obtain ⟨d', hd', he⟩ := h.find?_some hx
    rw [hd', Option.bind_some, Option.bind_some]
    cases d with
    | type d => obtain ⟨d', rfl⟩ := Decl.unplaced_type he; rfl
    | term d => obtain ⟨d', rfl, hd⟩ := Decl.unplaced_term he; exact alike_some.2 hd
    | axm r => obtain ⟨r', rfl, -⟩ := Decl.unplaced_axm he; rfl
    | thm t => obtain ⟨t', rfl, -⟩ := Decl.unplaced_thm he; rfl

end Scope

/-! ### Two runs -/

namespace Noted

/-- The values of two computations are related, and the diagnostics of the second are those of the
first, moved. Marks hold texts of terms, so they are only the same if templates are kept. -/
structure Matches (φ : Relocation) (ρ : Template → Template) (R : α → β → Prop) (x : Noted α)
    (y : Noted β) : Prop where
  value : R x.value y.value
  diagnostics : y.notes.diagnostics = relocate φ x.notes.diagnostics
  marks : ρ = id → y.notes.marks = relocate φ x.notes.marks

variable {R : α → β → Prop} {Q : γ → δ → Prop}

theorem Matches.notes {x : Noted α} {y : Noted β} (h : Matches φ id R x y) :
    y.notes = relocate φ x.notes :=
  Notes.ext h.diagnostics (h.marks rfl)

theorem matches_pure {a : α} {b : β} (h : R a b) : Matches φ ρ R (pure a) (pure b) :=
  ⟨h, rfl, fun _ => rfl⟩

theorem matches_bind {x : Noted α} {y : Noted β} {f : α → Noted γ} {g : β → Noted δ}
    (hx : Matches φ ρ R x y) (hf : ∀ a b, R a b → Matches φ ρ Q (f a) (g b)) :
    Matches φ ρ Q (x >>= f) (y >>= g) := by
  obtain ⟨hvalue, hdiagnostics, hmarks⟩ := hf _ _ hx.value
  refine ⟨hvalue, ?_, fun hρ => ?_⟩
  · rw [notes_bind, notes_bind, Notes.diagnostics_append, Notes.diagnostics_append, relocate_append,
      hx.diagnostics, hdiagnostics]
  · rw [notes_bind, notes_bind, Notes.marks_append, Notes.marks_append, relocate_append, hx.marks hρ,
      hmarks hρ]

theorem Matches.mono {x : Noted α} {y : Noted β} {R' : α → β → Prop} (h : Matches φ ρ R x y)
    (hR : ∀ a b, R a b → R' a b) : Matches φ ρ R' x y :=
  ⟨hR _ _ h.value, h.diagnostics, h.marks⟩

theorem matches_ite {c : Prop} [Decidable c] {x y : Noted α} {x' y' : Noted β}
    (hx : c → Matches φ ρ R x x') (hy : ¬c → Matches φ ρ R y y') :
    Matches φ ρ R (if c then x else y) (if c then x' else y') := by
  split
  · next h => exact hx h
  · next h => exact hy h

theorem matches_fault (k : Fault) (r : Token.Ref) :
    Matches φ ρ (fun _ _ => True) (fault k r) (fault k (relocate φ r)) :=
  ⟨trivial, rfl, fun _ => rfl⟩

theorem matches_refine (r : Token.Ref) (k : Token.Kind) :
    Matches φ ρ (fun _ _ => True) (refine r k) (refine (relocate φ r) k) :=
  ⟨trivial, rfl, fun _ => rfl⟩

theorem matches_comment (r : Token.Ref) {text text' : String} (h : ρ = id → text = text') :
    Matches φ ρ (fun _ _ => True) (comment r text) (comment (relocate φ r) text') :=
  ⟨trivial, rfl, fun hρ => by rw [h hρ]; rfl⟩

theorem matches_forM [Placed α] {f f' : α → Noted Unit}
    (hf : ∀ a, Matches φ ρ (fun _ _ => True) (f a) (f' (relocate φ a))) (as : List α) :
    Matches φ ρ (fun _ _ => True) (as.forM f) ((relocate φ as).forM f') := by
  induction as with
  | nil => exact matches_pure trivial
  | cons a as ih => exact matches_bind (hf a) fun _ _ _ => ih

end Noted

end Sequitur
