import Sequitur.Block.Reader
import Sequitur.Template
import Sequitur.Token.Scan

/-!
# Places play no role in reading

A relocation moves token indices and positions. What is read from moved lexemes is what is read from
the lexemes themselves, moved in the same way, and so are the notes (`Block.readLexemes_relocate`):
no reader looks at a place. Relocations need not keep different places apart; `Relocation.blank`
forgets them all, so that two things are equal up to places if they agree under it.

A relocation may also change templates. These are not read but made when a term is declared.
-/

namespace Sequitur

structure Relocation where
  index : Nat → Nat
  position : Position → Position
  template : Template → Template := id

/-- What holds places. -/
class Placed (α : Type) where
  relocate : Relocation → α → α

open Placed (relocate)

namespace Relocation

/-- Forgets all places. -/
def forget (ρ : Template → Template) : Relocation := ⟨fun _ => 0, fun _ => {}, ρ⟩

abbrev blank : Relocation := forget id

end Relocation

variable {α β : Type} {φ : Relocation}

/-! ### What is moved -/

instance : Placed Unit := ⟨fun _ u => u⟩
instance : Placed Bool := ⟨fun _ b => b⟩
instance : Placed Position := ⟨Relocation.position⟩
instance : Placed Span := ⟨fun φ s => ⟨relocate φ s.start, relocate φ s.stop⟩⟩
instance : Placed Token.Ref := ⟨fun φ r => ⟨φ.index r.index, r.text, relocate φ r.span⟩⟩
instance : Placed Lexeme := ⟨fun φ l => ⟨l.kind, relocate φ l.ref⟩⟩
instance [Placed α] : Placed (List α) := ⟨fun φ => List.map (relocate φ)⟩
instance [Placed α] : Placed (Option α) := ⟨fun φ => Option.map (relocate φ)⟩
instance [Placed α] [Placed β] : Placed (α × β) := ⟨fun φ p => (relocate φ p.1, relocate φ p.2)⟩
instance : Placed Param := ⟨fun φ p => ⟨relocate φ p.type, relocate φ p.name⟩⟩
instance : Placed Section := ⟨fun φ s => ⟨s.keyword, relocate φ s.head, relocate φ s.body⟩⟩

mutual
def Expr.move (φ : Relocation) : Expr → Expr
  | ⟨head, args, span⟩ => ⟨relocate φ head, moveAll φ args, relocate φ span⟩
def Expr.moveAll (φ : Relocation) : List Expr → List Expr
  | [] => []
  | e :: es => move φ e :: moveAll φ es
end

instance : Placed Expr := ⟨Expr.move⟩

instance : Placed Expr.Item where
  relocate φ
    | .opened head => .opened (relocate φ head)
    | .done e => .done (relocate φ e)

instance : Placed Block.ParamList :=
  ⟨fun φ l => ⟨relocate φ l.params, l.closed, relocate φ l.last, relocate φ l.rest⟩⟩
instance : Placed Block.Braced :=
  ⟨fun φ b => ⟨relocate φ b.inside, relocate φ b.last, relocate φ b.rest⟩⟩
instance : Placed Block.Body :=
  ⟨fun φ b => ⟨relocate φ b.targets, relocate φ b.assumptions, relocate φ b.distinct⟩⟩

instance : Placed TypeBlock :=
  ⟨fun φ b => ⟨relocate φ b.keyword, relocate φ b.names, relocate φ b.span⟩⟩
instance : Placed TermBlock :=
  ⟨fun φ b => ⟨relocate φ b.keyword, relocate φ b.type, relocate φ b.name, relocate φ b.params,
    relocate φ b.content, relocate φ b.span⟩⟩
instance : Placed RuleBlock :=
  ⟨fun φ b => ⟨relocate φ b.keyword, relocate φ b.name, relocate φ b.params, relocate φ b.targets,
    relocate φ b.assumptions, relocate φ b.distinct, relocate φ b.span⟩⟩
instance : Placed ThmBlock := ⟨fun φ b => ⟨relocate φ b.toRuleBlock, relocate φ b.proof⟩⟩

instance : Placed Block where
  relocate φ
    | .types b => .types (relocate φ b)
    | .term b => .term (relocate φ b)
    | .axm b => .axm (relocate φ b)
    | .thm b => .thm (relocate φ b)

instance : Placed Diagnostic := ⟨fun φ d => ⟨d.fault, φ.index d.token, relocate φ d.span⟩⟩

instance : Placed Mark where
  relocate φ
    | .refine i kind => .refine (φ.index i) kind
    | .comment i text => .comment (φ.index i) text

instance : Placed Notes := ⟨fun φ n => ⟨relocate φ n.diagnostics, relocate φ n.marks⟩⟩
instance [Placed α] : Placed (Noted α) := ⟨fun φ x => ⟨relocate φ x.value, relocate φ x.notes⟩⟩

/-! ### Lists and notes -/

section

variable [Placed α] [Placed β]

@[simp] theorem relocate_nil : relocate φ ([] : List α) = [] := rfl

@[simp] theorem relocate_cons (a : α) (as : List α) :
    relocate φ (a :: as) = relocate φ a :: relocate φ as := rfl

theorem relocate_eq_map (as : List α) : relocate φ as = as.map (relocate φ) := rfl

/-- What places play no role for gives the same for moved things. -/
theorem map_relocate {γ : Type} {f : α → γ} {as : List α} (h : ∀ a ∈ as, f (relocate φ a) = f a) :
    (relocate φ as).map f = as.map f := by
  rw [relocate_eq_map, List.map_map]
  exact List.map_congr_left h

@[simp] theorem relocate_append (as bs : List α) :
    relocate φ (as ++ bs) = relocate φ as ++ relocate φ bs := List.map_append

@[simp] theorem relocate_reverse (as : List α) :
    relocate φ as.reverse = (relocate φ as).reverse := by
  rw [relocate_eq_map, relocate_eq_map, List.map_reverse]

@[simp] theorem isEmpty_relocate (as : List α) : (relocate φ as).isEmpty = as.isEmpty := by
  cases as <;> rfl

@[simp] theorem length_relocate (as : List α) : (relocate φ as).length = as.length := List.length_map ..

@[simp] theorem relocate_none : relocate φ (none : Option α) = none := rfl

@[simp] theorem relocate_some (a : α) : relocate φ (some a) = some (relocate φ a) := rfl

@[simp] theorem relocate_pair (a : α) (b : β) : relocate φ (a, b) = (relocate φ a, relocate φ b) := rfl

@[simp] theorem notes_relocate_append (m n : Notes) :
    relocate φ (m ++ n) = relocate φ m ++ relocate φ n :=
  Notes.ext (relocate_append ..) (relocate_append ..)

namespace Noted

@[simp] theorem value_relocate (x : Noted α) : (relocate φ x).value = relocate φ x.value := rfl

@[simp] theorem notes_relocate (x : Noted α) : (relocate φ x).notes = relocate φ x.notes := rfl

theorem bind_relocate {x x' : Noted α} {f f' : α → Noted β} (hx : x' = relocate φ x)
    (hf : ∀ a, f' (relocate φ a) = relocate φ (f a)) : x' >>= f' = relocate φ (x >>= f) := by
  subst hx
  ext1
  · rw [value_bind, value_relocate, hf]
    rfl
  · rw [notes_bind, value_relocate, hf, notes_relocate, notes_relocate, notes_relocate, notes_bind,
      notes_relocate_append]

theorem ite_relocate {c : Prop} [Decidable c] {x x' y y' : Noted α} (hx : c → x' = relocate φ x)
    (hy : ¬c → y' = relocate φ y) : (if c then x' else y') = relocate φ (if c then x else y) := by
  split
  · next h => exact hx h
  · next h => exact hy h

theorem forM_relocate {f f' : α → Noted Unit} (hf : ∀ a, f' (relocate φ a) = relocate φ (f a))
    (as : List α) : (relocate φ as).forM f' = relocate φ (as.forM f) := by
  induction as with
  | nil => rfl
  | cons a as ih => exact bind_relocate (hf a) fun _ => ih

theorem foldlM_relocate {f f' : β → α → Noted β}
    (hf : ∀ b a, f' (relocate φ b) (relocate φ a) = relocate φ (f b a)) (b : β) (as : List α) :
    (relocate φ as).foldlM f' (relocate φ b) = relocate φ (as.foldlM f b) := by
  induction as generalizing b with
  | nil => rfl
  | cons a as ih =>
    rw [relocate_cons, List.foldlM_cons, List.foldlM_cons]
    exact bind_relocate (hf b a) fun c => ih c

theorem fault_relocate (f : Fault) (r : Token.Ref) : fault f (relocate φ r) = relocate φ (fault f r) :=
  rfl

theorem refine_relocate (r : Token.Ref) (k : Token.Kind) :
    refine (relocate φ r) k = relocate φ (refine r k) := rfl

end Noted

end

/-! ### Lexemes -/

@[simp] theorem Token.Ref.text_relocate (r : Token.Ref) : (relocate φ r).text = r.text := rfl

@[simp] theorem Token.Ref.span_relocate (r : Token.Ref) : (relocate φ r).span = relocate φ r.span := rfl

@[simp] theorem Span.through_relocate (s t : Span) :
    (relocate φ s).through (relocate φ t) = relocate φ (s.through t) := rfl

namespace Lexeme

@[simp] theorem ref_relocate (l : Lexeme) : (relocate φ l).ref = relocate φ l.ref := rfl

@[simp] theorem isSeparator_relocate (l : Lexeme) (c : Char) :
    (relocate φ l).isSeparator c = l.isSeparator c := rfl

@[simp] theorem keyword?_relocate (l : Lexeme) : (relocate φ l).keyword? = l.keyword? := rfl

theorem refs_relocate (ls : List Lexeme) :
    (relocate φ ls).map (·.ref) = relocate φ (ls.map (·.ref)) := by
  rw [relocate_eq_map, relocate_eq_map, List.map_map, List.map_map]
  rfl

end Lexeme

theorem Param.any_relocate (params : List Param) (s : String) :
    (relocate φ params).any (·.name.text == s) = params.any (·.name.text == s) := by
  rw [relocate_eq_map, List.any_map]
  rfl

theorem Section.split_relocate (heads : Keyword → Bool) (ls : List Lexeme) :
    split heads (relocate φ ls) = relocate φ (split heads ls) := by
  induction ls with
  | nil => rfl
  | cons l ls ih =>
    rw [relocate_cons, split, split, ih, Lexeme.keyword?_relocate]
    cases l.keyword? with
    | none => rfl
    | some k => cases h : heads k <;> simp only [h] <;> rfl

/-! ### Expressions -/

namespace Expr

open Noted

theorem moveAll_eq (es : List Expr) : moveAll φ es = relocate φ es := by
  induction es with
  | nil => rfl
  | cons e es ih => exact congrArg _ ih

theorem relocate_mk (head : Token.Ref) (args : List Expr) (span : Span) :
    relocate φ (⟨head, args, span⟩ : Expr) = ⟨relocate φ head, relocate φ args, relocate φ span⟩ := by
  rw [← moveAll_eq]
  rfl

@[simp] theorem head_relocate (e : Expr) : (relocate φ e).head = relocate φ e.head := by
  cases e; rfl

@[simp] theorem args_relocate (e : Expr) : (relocate φ e).args = relocate φ e.args := by
  cases e; exact moveAll_eq _

@[simp] theorem span_relocate (e : Expr) : (relocate φ e).span = relocate φ e.span := by
  cases e; rfl

theorem closeCall_relocate (close : Token.Ref) (stack : List Item) (args : List Expr) :
    closeCall (relocate φ close) (relocate φ stack) (relocate φ args) =
      relocate φ (closeCall close stack args) := by
  induction stack generalizing args with
  | nil => rfl
  | cons item stack ih =>
    cases item with
    | done e => exact ih (e :: args)
    | opened head =>
      rw [closeCall, relocate_some, relocate_pair, relocate_mk]
      rfl

theorem shift_relocate (stack : List Item) (ls : List Lexeme) :
    shift (relocate φ stack) (relocate φ ls) = relocate φ (shift stack ls) := by
  induction stack, ls using shift.induct with
  | case1 stack => rfl
  | case2 stack l hw =>
    rw [shift_word_singleton hw]
    exact shift_word_singleton hw
  | case3 stack l hw next rest hp ih =>
    rw [shift_call hw hp, ← ih]
    exact shift_call hw hp
  | case4 stack l hw next rest hp ih =>
    rw [shift_word hw hp, ← ih]
    exact shift_word hw hp
  | case5 stack l ls hw hp e stack' hc ih =>
    have hc' := closeCall_relocate (φ := φ) l.ref stack []
    rw [hc] at hc'
    rw [shift_close hw hp hc]
    refine (shift_close (l := relocate φ l) hw hp hc').trans (bind_relocate ?_ fun _ => ih)
    rw [head_relocate, args_relocate, isEmpty_relocate, refine_relocate]
  | case6 stack l ls hw hp hc ih =>
    have hc' := closeCall_relocate (φ := φ) l.ref stack []
    rw [hc] at hc'
    rw [shift_close_none hw hp hc]
    exact (shift_close_none (l := relocate φ l) hw hp hc').trans
      (bind_relocate (fault_relocate ..) fun _ => ih)
  | case7 stack l ls hw hp hs ih =>
    rw [shift_comma hw hp hs, ← ih]
    exact shift_comma hw hp hs
  | case8 stack l ls hw hp hs ih =>
    rw [shift_unexpected hw hp hs]
    exact (shift_unexpected (l := relocate φ l) hw hp hs).trans
      (bind_relocate (fault_relocate ..) fun _ => ih)

theorem settle_relocate (items : List Item) :
    settle (relocate φ items) = relocate φ (settle items) := by
  induction items with
  | nil => rfl
  | cons item items ih =>
    cases item with
    | done e => exact bind_relocate ih fun _ => rfl
    | opened head => exact bind_relocate (fault_relocate ..) fun _ => ih

theorem readAll_relocate (ls : List Lexeme) : readAll (relocate φ ls) = relocate φ (readAll ls) := by
  refine bind_relocate (shift_relocate [] ls) fun stack => ?_
  rw [← relocate_reverse, settle_relocate]

end Expr

/-! ### Blocks -/

namespace Block

open Noted

theorem faultAll_relocate (f : Fault) (ls : List Lexeme) :
    faultAll f (relocate φ ls) = relocate φ (faultAll f ls) :=
  forM_relocate (fun l => fault_relocate f l.ref) ls

theorem lastRef_relocate (ref : Token.Ref) (ls : List Lexeme) :
    lastRef (relocate φ ref) (relocate φ ls) = relocate φ (lastRef ref ls) := by
  unfold lastRef
  rw [relocate_eq_map, List.getLast?_map]
  cases ls.getLast? <;> rfl

theorem readParams_relocate (ls : List Lexeme) :
    readParams (relocate φ ls) = relocate φ (readParams ls) := by
  induction ls using readParams.induct with
  | case1 => rfl
  | case2 type ls hw ih =>
    rw [relocate_cons, readParams.eq_def, readParams.eq_def (type :: ls)]
    refine ite_relocate (fun _ => ?_) fun h => absurd hw h
    refine bind_relocate (refine_relocate ..) fun _ => ?_
    cases ls with
    | nil => exact bind_relocate (fault_relocate ..) fun _ => rfl
    | cons name ls =>
      refine ite_relocate (fun _ => ?_) fun _ => bind_relocate (fault_relocate ..) fun _ => ih.2
      refine bind_relocate (refine_relocate ..) fun _ => ?_
      cases ls with
      | nil => rfl
      | cons next rest =>
        refine ite_relocate (fun _ => ?_) fun _ => ?_
        · exact bind_relocate ih.1.1 fun _ => rfl
        · exact bind_relocate ih.1.2 fun _ => rfl
  | case3 l ls hw ih =>
    rw [relocate_cons, readParams.eq_def, readParams.eq_def (l :: ls)]
    refine ite_relocate (fun h => absurd h hw) fun _ => ?_
    exact bind_relocate (fault_relocate ..) fun _ => ih

theorem readParamList_relocate (paren : Token.Ref) (ls : List Lexeme) :
    readParamList (relocate φ paren) (relocate φ ls) = relocate φ (readParamList paren ls) := by
  have hspan : ∀ p : Lexeme → Bool, (∀ l, p (relocate φ l) = p l) →
      (relocate φ ls).takeWhile p = relocate φ (ls.takeWhile p) ∧
        (relocate φ ls).dropWhile p = relocate φ (ls.dropWhile p) := by
    intro p hp
    rw [relocate_eq_map, List.takeWhile_map, List.dropWhile_map, show p ∘ relocate φ = p from funext hp]
    exact ⟨rfl, rfl⟩
  obtain ⟨htake, hdrop⟩ := hspan (fun l => l.isWord || l.isSeparator ',') fun _ => rfl
  unfold readParamList
  simp only [htake, hdrop]
  refine bind_relocate (readParams_relocate _) fun params => ?_
  cases ls.dropWhile fun l => l.isWord || l.isSeparator ',' with
  | nil => rw [relocate_nil, lastRef_relocate]; rfl
  | cons close rest =>
    refine ite_relocate (fun _ => rfl) fun _ => ?_
    rw [lastRef_relocate]
    rfl

theorem cutFirst_relocate {p : Lexeme → Bool} (hp : ∀ l, p (relocate φ l) = p l) (ls : List Lexeme) :
    cutFirst p (relocate φ ls) = relocate φ (cutFirst p ls) := by
  induction ls with
  | nil => rfl
  | cons l ls ih =>
    rw [relocate_cons, cutFirst, cutFirst, hp, ih]
    split
    · rfl
    · cases cutFirst p ls <;> rfl

theorem cutLast_relocate {p : Lexeme → Bool} (hp : ∀ l, p (relocate φ l) = p l) (ls : List Lexeme) :
    cutLast p (relocate φ ls) = relocate φ (cutLast p ls) := by
  induction ls with
  | nil => rfl
  | cons l ls ih =>
    rw [relocate_cons, cutLast, cutLast, ih, hp]
    cases cutLast p ls with
    | none => cases p l <;> rfl
    | some cut => rfl

theorem readTypes_relocate (keyword : Token.Ref) (ls : List Lexeme) :
    readTypes (relocate φ keyword) (relocate φ ls) = relocate φ (readTypes keyword ls) := by
  have hnames : ((relocate φ ls).filter (·.isWord)).map (·.ref) =
      relocate φ ((ls.filter (·.isWord)).map (·.ref)) := by
    rw [← Lexeme.refs_relocate, relocate_eq_map, relocate_eq_map, List.filter_map]
    rfl
  unfold readTypes
  simp only [hnames, lastRef_relocate, isEmpty_relocate]
  refine bind_relocate (forM_relocate (fun (l : Lexeme) => ?_) ls) fun _ => ?_
  · exact ite_relocate (fun _ => refine_relocate l.ref _) fun _ => fault_relocate _ l.ref
  refine ite_relocate (fun _ => ?_) fun _ => ?_
  · exact bind_relocate (fault_relocate ..) fun _ => rfl
  · rfl

theorem readForm_relocate (last : Token.Ref) (ls : List Lexeme) :
    readForm (relocate φ last) (relocate φ ls) = relocate φ (readForm last ls) := by
  cases ls with
  | nil => rfl
  | cons brace ls =>
    rw [relocate_cons, readForm, readForm, cutLast_relocate fun _ => rfl]
    refine ite_relocate (fun _ => ?_) fun _ => ?_
    · cases cutLast (·.isSeparator '}') ls with
      | none =>
        refine bind_relocate (fault_relocate ..) fun _ => ?_
        rw [Lexeme.refs_relocate, Lexeme.ref_relocate, lastRef_relocate]
        rfl
      | some cut =>
        show pure (_, _) = _
        rw [Lexeme.refs_relocate]
        rfl
    · refine bind_relocate (fault_relocate ..) fun _ => ?_
      rw [Lexeme.ref_relocate, lastRef_relocate]
      rfl

theorem readTermParams_relocate (name : Token.Ref) (ls : List Lexeme) :
    readTermParams (relocate φ name) (relocate φ ls) = relocate φ (readTermParams name ls) := by
  cases ls with
  | nil => rfl
  | cons paren ls =>
    refine ite_relocate (fun _ => ?_) fun _ => rfl
    refine bind_relocate (readParamList_relocate ..) fun list => ?_
    exact ite_relocate (fun _ => bind_relocate (fault_relocate ..) fun _ => rfl) fun _ => rfl

theorem readTerm_relocate (keyword : Token.Ref) (ls : List Lexeme) :
    readTerm (relocate φ keyword) (relocate φ ls) = relocate φ (readTerm keyword ls) := by
  cases ls with
  | nil => exact bind_relocate (fault_relocate ..) fun _ => rfl
  | cons type ls =>
    refine ite_relocate (fun _ => ?_) fun _ => bind_relocate (fault_relocate ..) fun _ => rfl
    refine bind_relocate (refine_relocate ..) fun _ => ?_
    cases ls with
    | nil => exact bind_relocate (fault_relocate ..) fun _ => rfl
    | cons name ls =>
      refine ite_relocate (fun _ => ?_) fun _ => bind_relocate (fault_relocate ..) fun _ => rfl
      refine bind_relocate (readTermParams_relocate ..) fun head => ?_
      refine bind_relocate (readForm_relocate ..) fun form => ?_
      obtain ⟨params, _⟩ := head
      obtain ⟨form, last⟩ := form
      have hcontent : (if form.isEmpty then [relocate φ name.ref] else relocate φ form) =
          relocate φ (if form.isEmpty then [name.ref] else form) := by
        split <;> rfl
      simp only [relocate_pair, Lexeme.ref_relocate, isEmpty_relocate, hcontent]
      refine ite_relocate (fun _ => ?_) fun _ => bind_relocate (refine_relocate ..) fun _ => rfl
      refine bind_relocate (refine_relocate ..) fun _ => ?_
      exact bind_relocate (forM_relocate (fun r => refine_relocate r _) form) fun _ => rfl

theorem readGroupLexeme_relocate (params : List Param) (groups : List (List Token.Ref)) (l : Lexeme) :
    readGroupLexeme (relocate φ params) (relocate φ groups) (relocate φ l) =
      relocate φ (readGroupLexeme params groups l) := by
  unfold readGroupLexeme
  rw [Lexeme.ref_relocate, Token.Ref.text_relocate, Param.any_relocate]
  refine ite_relocate (fun _ => rfl) fun _ => ite_relocate (fun _ => ?_) fun _ => rfl
  refine ite_relocate (fun _ => ?_) fun _ => bind_relocate (fault_relocate ..) fun _ => rfl
  refine bind_relocate (refine_relocate ..) fun _ => ?_
  cases groups with
  | nil => rfl
  | cons group groups =>
    have hany : (relocate φ group).any (·.text == l.ref.text) = group.any (·.text == l.ref.text) := by
      rw [relocate_eq_map, List.any_map]
      rfl
    simp only [relocate_cons, hany]
    exact ite_relocate (fun _ => bind_relocate (fault_relocate ..) fun _ => rfl) fun _ => rfl

theorem readGroups_relocate (params : List Param) (ls : List Lexeme) :
    readGroups (relocate φ params) (relocate φ ls) = relocate φ (readGroups params ls) := by
  refine bind_relocate (foldlM_relocate (readGroupLexeme_relocate params) [] ls) fun groups => ?_
  have hgroups : ((relocate φ groups).map List.reverse).reverse =
      relocate φ (groups.map List.reverse).reverse := by
    rw [relocate_reverse]
    simp only [relocate_eq_map, List.map_map]
    congr 2
    exact funext fun g => (relocate_reverse g).symm
  simp only [hgroups]
  refine bind_relocate (forM_relocate (fun group => ?_) _) fun _ => ?_
  · rcases group with _ | ⟨a, _ | ⟨b, group⟩⟩ <;> rfl
  · have hlong : (relocate φ (groups.map List.reverse).reverse).filter (·.length > 1) =
        relocate φ ((groups.map List.reverse).reverse.filter (·.length > 1)) := by
      simp only [relocate_eq_map, List.filter_map]
      congr 2
      exact funext fun g => by rw [Function.comp_apply, length_relocate]
    rw [hlong]
    rfl

theorem readStatement_relocate (params : List Param) (body : Body) (s : Section) :
    readStatement (relocate φ params) (relocate φ body) (relocate φ s) =
      relocate φ (readStatement params body s) := by
  obtain ⟨keyword, head, ls⟩ := s
  -- whatever the statement adds, it may be a fault that it adds nothing
  have hadd : ∀ {c : Bool} {f : Fault} {b b' : Body}, b' = relocate φ b →
      (if c then Noted.fault f (relocate φ head) >>= fun _ => pure b' else pure b') =
        relocate φ (if c then Noted.fault f head >>= fun _ => pure b else pure b) := by
    rintro c f b _ rfl
    exact ite_relocate (fun _ => bind_relocate (fault_relocate ..) fun _ => rfl) fun _ => rfl
  cases keyword with
  | target =>
    refine bind_relocate (Expr.readAll_relocate ls) fun exprs => ?_
    rw [isEmpty_relocate]
    exact hadd (congrArg (Body.mk · _ _) (relocate_append ..).symm)
  | assume =>
    refine bind_relocate (Expr.readAll_relocate ls) fun exprs => ?_
    rw [isEmpty_relocate]
    exact hadd (congrArg (Body.mk _ · _) (relocate_append ..).symm)
  | typeDecl | termDecl | axiomDecl | thmDecl | distinct =>
    refine bind_relocate (readGroups_relocate params ls) fun groups => ?_
    rw [isEmpty_relocate]
    exact hadd (congrArg (Body.mk _ _ ·) (relocate_append ..).symm)

theorem readBody_relocate (params : List Param) (ls : List Lexeme) :
    readBody (relocate φ params) (relocate φ ls) = relocate φ (readBody params ls) := by
  unfold readBody
  rw [Section.split_relocate]
  refine bind_relocate (faultAll_relocate ..) fun _ => ?_
  exact foldlM_relocate (readStatement_relocate params) {} _

theorem readBraced_relocate (brace : Lexeme) (ls : List Lexeme) :
    readBraced (relocate φ brace) (relocate φ ls) = relocate φ (readBraced brace ls) := by
  have hls : (if (relocate φ brace).isSeparator '{' then relocate φ ls
        else relocate φ brace :: relocate φ ls) =
      relocate φ (if brace.isSeparator '{' then ls else brace :: ls) := by
    rw [Lexeme.isSeparator_relocate]
    split <;> rfl
  unfold readBraced
  simp only [hls, Lexeme.ref_relocate]
  generalize (if brace.isSeparator '{' then ls else brace :: ls) = inner
  have hcut := cutFirst_relocate (φ := φ) (p := (·.isSeparator '}')) (fun _ => rfl) inner
  refine ite_relocate (fun _ => bind_relocate (fault_relocate ..) fun _ => ?_) fun _ => ?_
  all_goals
    rw [hcut, lastRef_relocate]
    cases cutFirst (·.isSeparator '}') inner with
    | none => exact bind_relocate (fault_relocate ..) fun _ => rfl
    | some cut => rfl

theorem readRuleParams_relocate (name : Token.Ref) (ls : List Lexeme) :
    readRuleParams (relocate φ name) (relocate φ ls) = relocate φ (readRuleParams name ls) := by
  cases ls with
  | nil => exact bind_relocate (fault_relocate ..) fun _ => rfl
  | cons paren ls =>
    refine ite_relocate (fun _ => ?_) fun _ => bind_relocate (fault_relocate ..) fun _ => rfl
    refine bind_relocate (readParamList_relocate ..) fun list => ?_
    exact ite_relocate (fun _ => bind_relocate (fault_relocate ..) fun _ => rfl) fun _ => rfl

theorem readRuleBraces_relocate (list : ParamList) :
    readRuleBraces (relocate φ list) = relocate φ (readRuleBraces list) := by
  obtain ⟨params, closed, last, rest⟩ := list
  cases rest with
  | nil => exact bind_relocate (fault_relocate ..) fun _ => rfl
  | cons brace ls => exact readBraced_relocate brace ls

theorem readRule_relocate (keyword : Token.Ref) (kind : Token.Kind) (ls : List Lexeme) :
    readRule (relocate φ keyword) kind (relocate φ ls) = relocate φ (readRule keyword kind ls) := by
  cases ls with
  | nil => exact bind_relocate (fault_relocate ..) fun _ => rfl
  | cons name ls =>
    refine ite_relocate (fun _ => ?_) fun _ => bind_relocate (fault_relocate ..) fun _ => rfl
    refine bind_relocate (refine_relocate ..) fun _ => ?_
    refine bind_relocate (readRuleParams_relocate ..) fun list => ?_
    refine bind_relocate (readRuleBraces_relocate list) fun braced => ?_
    refine bind_relocate (readBody_relocate ..) fun body => ?_
    have hempty : (relocate φ body).targets.isEmpty = body.targets.isEmpty := isEmpty_relocate _
    rw [hempty]
    exact ite_relocate (fun _ => bind_relocate (fault_relocate ..) fun _ => rfl) fun _ => rfl

theorem readAxiom_relocate (keyword : Token.Ref) (ls : List Lexeme) :
    readAxiom (relocate φ keyword) (relocate φ ls) = relocate φ (readAxiom keyword ls) := by
  refine bind_relocate (readRule_relocate ..) fun rule => ?_
  cases rule with
  | none => rfl
  | some rule => exact bind_relocate (faultAll_relocate ..) fun _ => rfl

theorem readEquals_relocate (name : Token.Ref) (ls : List Lexeme) :
    readEquals (relocate φ name) (relocate φ ls) = relocate φ (readEquals name ls) := by
  cases ls with
  | nil => exact bind_relocate (fault_relocate ..) fun _ => rfl
  | cons equals ls =>
    exact ite_relocate (fun _ => rfl) fun _ => bind_relocate (fault_relocate ..) fun _ => rfl

theorem readProof_relocate (last : Option Token.Ref) (ls : List Lexeme) :
    readProof (relocate φ last) (relocate φ ls) = relocate φ (readProof last ls) := by
  cases ls with
  | nil => rfl
  | cons brace ls =>
    refine bind_relocate (readBraced_relocate ..) fun braced => ?_
    exact bind_relocate (Expr.readAll_relocate _) fun _ => rfl

theorem readThm_relocate (keyword : Token.Ref) (ls : List Lexeme) :
    readThm (relocate φ keyword) (relocate φ ls) = relocate φ (readThm keyword ls) := by
  refine bind_relocate (readRule_relocate ..) fun rule => ?_
  cases rule with
  | none => rfl
  | some rule =>
    refine bind_relocate (readEquals_relocate rule.1.name rule.2) fun equals => ?_
    refine bind_relocate (readProof_relocate equals.1 equals.2) fun proof => ?_
    refine bind_relocate (faultAll_relocate .unexpectedToken proof.2.2) fun _ => ?_
    obtain ⟨proof, last, ls⟩ := proof
    cases last <;> rfl

theorem ofSection_relocate (s : Section) : ofSection (relocate φ s) = relocate φ (ofSection s) := by
  obtain ⟨keyword, head, body⟩ := s
  cases keyword with
  | typeDecl => exact bind_relocate (readTypes_relocate head body) fun _ => rfl
  | termDecl => exact readTerm_relocate head body
  | axiomDecl => exact readAxiom_relocate head body
  | thmDecl => exact readThm_relocate head body
  | target | assume | distinct => rfl

theorem ofSections_relocate (sections : List Section) :
    ofSections (relocate φ sections) = relocate φ (ofSections sections) := by
  induction sections with
  | nil => rfl
  | cons s sections ih =>
    refine bind_relocate (ofSection_relocate s) fun block => bind_relocate ih fun blocks => ?_
    cases block <;> rfl

/-- The blocks of lexemes. -/
def readLexemes (ls : List Lexeme) : Noted (List Block) :=
  faultAll .unexpectedToken (Section.split Keyword.startsBlock ls).1 >>= fun _ =>
    ofSections (Section.split Keyword.startsBlock ls).2

theorem readAll_eq (tokens : List Token) : readAll tokens = readLexemes (Lexeme.ofTokens tokens) := rfl

/-- No reader looks at a place. -/
theorem readLexemes_relocate (ls : List Lexeme) :
    readLexemes (relocate φ ls) = relocate φ (readLexemes ls) := by
  unfold readLexemes
  rw [Section.split_relocate]
  exact bind_relocate (faultAll_relocate ..) fun _ => ofSections_relocate _

end Block

end Sequitur
