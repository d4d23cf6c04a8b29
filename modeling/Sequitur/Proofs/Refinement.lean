import Sequitur.Proofs.Anchoring

/-!
# What kinds tokens end up with

Checking a text keeps the texts and spans of its tokens, and refines words to kinds of names. The form of a
constant is the exception, since it is marked as a whole: separators and keywords in it become the name
of a constant (`Document.kinds_check`). All other tokens that are not words keep their kinds.
-/

namespace Sequitur

open Noted

/-! ### Forms of constants are marked -/

namespace Noted

variable {α : Type}

/-- If a block is read that is a constant, its form is marked. -/
def MarksForm (x : Noted (Option Block)) : Prop :=
  ∀ b, x.value = some b → ∀ r ∈ b.constantForm, .refine r.index .constName ∈ x.notes.marks

theorem marksForm_none : (pure none : Noted (Option Block)).MarksForm := fun _ hb => absurd hb nofun

theorem marksForm_bind {x : Noted α} {f : α → Noted (Option Block)} (h : ∀ a, (f a).MarksForm) :
    (x >>= f).MarksForm := by
  intro b hb r hr
  rw [notes_bind, Notes.marks_append]
  exact List.mem_append_right _ (h x.value b hb r hr)

theorem marksForm_ite {c : Prop} [Decidable c] {x y : Noted (Option Block)} (hx : c → x.MarksForm)
    (hy : ¬c → y.MarksForm) : (if c then x else y).MarksForm :=
  iteInduction (motive := MarksForm) hx hy

theorem mem_marks_forM_refine {kind : Token.Kind} {refs : List Token.Ref} {r : Token.Ref} (h : r ∈ refs) :
    .refine r.index kind ∈ (refs.forM fun token => refine token kind).notes.marks := by
  induction refs with
  | nil => exact absurd h List.not_mem_nil
  | cons r' refs ih =>
    show _ ∈ (refine r' kind).notes.marks ++ (refs.forM fun token => refine token kind).notes.marks
    rcases List.mem_cons.1 h with rfl | h
    · exact List.mem_append_left _ (List.mem_singleton_self _)
    · exact List.mem_append_right _ (ih h)

end Noted

namespace Block

theorem marksForm_readTerm (keyword : Token.Ref) (ls : List Lexeme) : (readTerm keyword ls).MarksForm := by
  cases ls with
  | nil => exact marksForm_bind fun _ => marksForm_none
  | cons type ls =>
    unfold readTerm
    refine marksForm_ite (fun _ => marksForm_bind fun _ => ?_) fun _ => marksForm_bind fun _ => marksForm_none
    cases ls with
    | nil => exact marksForm_bind fun _ => marksForm_none
    | cons name ls =>
      refine marksForm_ite (fun _ => ?_) fun _ => marksForm_bind fun _ => marksForm_none
      refine marksForm_bind fun head => marksForm_bind fun form => ?_
      obtain ⟨params, last, rest⟩ := head
      obtain ⟨form, last⟩ := form
      cases params with
      | cons p params =>
        refine marksForm_bind fun _ => ?_
        rintro b ⟨⟩ r hr
        exact absurd hr List.not_mem_nil
      | nil =>
        -- without a form, the name stands for it
        rintro b ⟨⟩ r hr
        show _ ∈ (refine name.ref .constName).notes.marks ++
          ((form.forM fun token => refine token .constName).notes.marks ++ [])
        rw [List.append_nil]
        cases form with
        | nil =>
          rw [List.mem_singleton.1 hr]
          exact List.mem_append_left _ (List.mem_singleton_self _)
        | cons r' form => exact List.mem_append_right _ (mem_marks_forM_refine hr)

theorem marksForm_ofSection (s : Section) : (ofSection s).MarksForm := by
  obtain ⟨keyword, head, body⟩ := s
  by_cases hterm : keyword = .termDecl
  · rw [hterm]
    exact marksForm_readTerm head body
  · intro b hb r hr
    have hkeyword := (standsIn_ofSection ⟨keyword, head, body⟩ b hb).keyword
    cases b with
    | term b => exact absurd hkeyword.symm hterm
    | types | axm | thm => exact absurd hr List.not_mem_nil

theorem mem_marks_ofSections {sections : List Section} {b : Block} (hb : b ∈ (ofSections sections).value)
    {r : Token.Ref} (hr : r ∈ b.constantForm) :
    .refine r.index .constName ∈ (ofSections sections).notes.marks := by
  induction sections with
  | nil => exact absurd hb List.not_mem_nil
  | cons s sections ih =>
    have hb : b ∈ (ofSection s).value.toList ++ (ofSections sections).value := hb
    show _ ∈ (ofSection s).notes.marks ++ ((ofSections sections).notes.marks ++ [])
    rw [List.append_nil]
    rcases List.mem_append.1 hb with hb | hb
    · exact List.mem_append_left _ (marksForm_ofSection s b (Option.mem_toList.1 hb) r hr)
    · exact List.mem_append_right _ (ih hb)

end Block

namespace Document

variable (scope : Scope) {text : String} {i : Nat}

theorem mem_marks_checked {tokens : List Token} (h : Block.InForm tokens i) :
    .refine i .constName ∈ (checked scope tokens).notes.marks := by
  obtain ⟨b, hb, r, hr, rfl⟩ := h
  rw [checked, notes_bind, Notes.marks_append]
  exact List.mem_append_left _ (List.mem_append_right _ (Block.mem_marks_ofSections hb hr))

/-- A token that is not a word is refined in the form of a constant only. -/
theorem inForm_of_mem_marks {t : Token} (ht : (Token.scan text)[i]? = some t) (hw : t.kind ≠ .word)
    {kind : Token.Kind} (h : .refine i kind ∈ (checked scope (Token.scan text)).notes.marks) :
    kind = .constName ∧ Block.InForm (Token.scan text) i := by
  obtain ⟨r, ⟨-, l, hl, rfl, hl'⟩, rfl⟩ := (within_checked scope text).refines i kind h
  rcases hl' with hword | hform
  · obtain ⟨t', ht', he, -⟩ := Lexeme.eq_of_mem_ofTokens hl
    cases ht.symm.trans ht'
    rw [he] at hword
    exact absurd (beq_iff_eq.1 hword) hw
  · exact hform

/-- The kind of a token that was scanned as `t`, at the index `i`. -/
structure Settled (tokens : List Token) (i : Nat) (t t' : Token) : Prop where
  word : t.kind = .word → t'.kind.isName = true
  inForm : t.kind ≠ .word → Block.InForm tokens i → t'.kind = .constName
  other : t.kind ≠ .word → ¬Block.InForm tokens i → t'.kind = t.kind

theorem settled_tokens {t t' : Token} (ht : (Token.scan text)[i]? = some t)
    (ht' : (ofTokens scope (Token.scan text)).tokens.toList[i]? = some t') :
    Settled (Token.scan text) i t t' := by
  obtain ⟨u, hu, hrefined⟩ := getElem?_tokens scope text ht
  cases ht'.symm.trans hu
  refine ⟨fun hw => ?_, fun hw hform => ?_, fun hw hform => ?_⟩
  · rcases hrefined.kind with ⟨hsame, -⟩ | hmark
    · rw [hsame, hw]
      rfl
    · obtain ⟨r, ⟨hname, -⟩, -⟩ := (within_checked scope text).refines _ _ hmark
      exact hname
  · rcases hrefined.kind with ⟨-, hnone⟩ | hmark
    · exact absurd (mem_marks_checked scope hform) (hnone _)
    · exact (inForm_of_mem_marks scope ht hw hmark).1
  · rcases hrefined.kind with ⟨hsame, -⟩ | hmark
    · exact hsame
    · exact absurd (inForm_of_mem_marks scope ht hw hmark).2 hform

/-- What scanning takes for a name: words only. -/
theorem isName_iff_of_mem_scan {t : Token} (h : t ∈ Token.scan text) :
    t.kind.isName = true ↔ t.kind = .word := by
  have hpiece : ∀ (c : Char) (cs : List Char), ((Token.firstPiece c cs).1.kind.isName = true ↔
      (Token.firstPiece c cs).1.kind = .word) := by
    intro c cs
    unfold Token.firstPiece
    repeat' split
    all_goals simp [Token.Kind.isName]
  have hpieces : ∀ cs, ∀ p ∈ Token.pieces cs, (p.kind.isName = true ↔ p.kind = .word) := by
    intro cs
    fun_induction Token.pieces cs with
    | case1 => exact fun p hp => absurd hp List.not_mem_nil
    | case2 c cs ih => exact List.forall_mem_cons.2 ⟨hpiece c cs, ih⟩
  obtain ⟨p, hp, hkind, -⟩ := Token.exists_piece_of_mem_place h
  rw [hkind, Token.Piece.tokenKind]
  split
  · simp [Token.Kind.isName]
  · exact hpieces _ p hp

/-- A token of the form of a constant is neither a blank nor a comment. -/
theorem kind_of_inForm {tokens : List Token} {t : Token} (ht : tokens[i]? = some t)
    (h : Block.InForm tokens i) : t.kind ≠ .blank ∧ t.kind ≠ .comment := by
  obtain ⟨b, hb, r, hr, rfl⟩ := h
  obtain ⟨l, hl, rfl⟩ := Block.exists_lexeme_of_mem_constantForm hb hr
  obtain ⟨t', ht', -, hkind⟩ := Lexeme.eq_of_mem_ofTokens hl
  cases ht.symm.trans ht'
  exact hkind

/-- Checking keeps tokens with their texts and spans. Words become names, the form of a constant becomes the
name of one, and what is neither a word nor in such a form stays what it is, like all blanks and comments. -/
theorem kinds_check (imports : List Table) (searchLimit : Nat) (text : String) :
    let tokens := (check imports searchLimit text).tokens.toList
    tokens.map (fun t => (t.text, t.span)) = (Token.scan text).map (fun t => (t.text, t.span)) ∧
      ∀ (i : Nat) (t t' : Token), (Token.scan text)[i]? = some t → tokens[i]? = some t' →
        Settled (Token.scan text) i t t' ∧
        (t.kind = .blank ∨ t.kind = .comment → t'.kind = t.kind) ∧
        (t'.kind.isName = true ↔ t.kind = .word ∨ Block.InForm (Token.scan text) i) := by
  intro tokens
  let scope : Scope := { imports, searchLimit }
  have hlength : tokens.length = (Token.scan text).length := length_tokens scope text
  refine ⟨List.ext_getElem? fun i => ?_, fun i t t' ht ht' => ?_⟩
  · rw [List.getElem?_map, List.getElem?_map]
    cases ht : (Token.scan text)[i]? with
    | none =>
      have hnone : tokens[i]? = none := by
        rw [List.getElem?_eq_none_iff] at ht ⊢
        omega
      rw [hnone]
    | some t =>
      obtain ⟨t', ht', hrefined⟩ := getElem?_tokens scope text ht
      have ht' : tokens[i]? = some t' := ht'
      rw [ht', Option.map_some, Option.map_some, hrefined.text, hrefined.span]
  · have hsettled := settled_tokens scope ht ht'
    refine ⟨hsettled, fun hkind => ?_, fun hname => ?_, fun h => ?_⟩
    · have hw : t.kind ≠ .word := fun hw => by simp [hw] at hkind
      refine hsettled.other hw fun hform => ?_
      obtain ⟨hblank, hcomment⟩ := kind_of_inForm ht hform
      exact hkind.elim hblank hcomment
    · by_contra hnot
      rw [not_or] at hnot
      rw [hsettled.other hnot.1 hnot.2] at hname
      exact hnot.1 ((isName_iff_of_mem_scan (List.mem_of_getElem? ht)).1 hname)
    · by_cases hw : t.kind = .word
      · exact hsettled.word hw
      · rw [hsettled.inForm hw (h.resolve_left hw)]
        rfl

/-- A constant that is written as a parenthesis. -/
def parenthesis : String := "type W term W a {(}"

/-- Even where nothing is wrong, a separator does not always stay one. -/
theorem not_kind_eq : ¬∀ (text : String) (i : Nat) (t t' : Token), (check [] 5 text).diagnostics = [] →
    (Token.scan text)[i]? = some t → (check [] 5 text).tokens.toList[i]? = some t' →
    t.kind = .separator → t'.kind = .separator := by
  intro h
  have hscan : (Token.scan parenthesis)[11]? =
      some ⟨.separator, "(", ⟨⟨0, 17, 17⟩, ⟨0, 18, 18⟩⟩, none, none⟩ := by
    decide +kernel
  have hcheck : (check [] 5 parenthesis).tokens.toList[11]? =
      some ⟨.constName, "(", ⟨⟨0, 17, 17⟩, ⟨0, 18, 18⟩⟩, none, none⟩ := by
    decide +kernel
  have hclean : (check [] 5 parenthesis).diagnostics = [] := by decide +kernel
  exact absurd (h parenthesis 11 _ _ hclean hscan hcheck rfl) nofun

end Document

end Sequitur
