import Sequitur.Document
import Sequitur.Proofs.Independence
import Sequitur.Proofs.Segmentation

/-!
# Texts one after another

Where a text does not end in an open comment and the next one starts with a block, checking both, with
a line end between them, checks the first and then the second, in the scope that the first leaves
(`checked_join`). What the second contributes is what it contributes by itself, moved behind the first.
-/

namespace Sequitur

open Placed (relocate)

variable {φ : Relocation}

instance : Placed Token := ⟨fun φ t => { t with span := relocate φ t.span }⟩

/-! ### Tokens -/

/-- Behind some number of tokens, the last of which ends a line at a position. -/
def Relocation.behind (n : Nat) (p : Position) : Relocation :=
  { index := (· + n), position := fun q => ⟨q.line + p.line, q.character, q.offset + p.offset⟩ }

theorem Position.relocate_behind (n : Nat) (p q : Position) :
    relocate (.behind n p) q = ⟨q.line + p.line, q.character, q.offset + p.offset⟩ := rfl

theorem Position.advance_behind (n : Nat) (p q : Position) (c : Char) :
    Position.advance (relocate (.behind n p) q) c = relocate (.behind n p) (q.advance c) := by
  by_cases hc : isNewline c = true
  · simp [advance, hc, relocate_behind]
    omega
  · simp [advance, hc, relocate_behind]
    omega

theorem Position.advanceAll_behind (n : Nat) (p q : Position) (cs : List Char) :
    (relocate (.behind n p) q).advanceAll cs = relocate (.behind n p) (q.advanceAll cs) := by
  induction cs generalizing q with
  | nil => rfl
  | cons c cs ih => rw [advanceAll_cons, advanceAll_cons, advance_behind, ih]

namespace Token

theorem place_append (start : Position) (ps qs : List Piece) :
    place start (ps ++ qs) =
      place start ps ++ place (start.advanceAll (ps.flatMap (·.chars))) qs := by
  induction ps generalizing start with
  | nil => rfl
  | cons p ps ih =>
    rw [List.cons_append, place, place, ih, List.flatMap_cons, Position.advanceAll_append]
    rfl

theorem place_behind (n : Nat) (p start : Position) (ps : List Piece) :
    place (relocate (.behind n p) start) ps = relocate (.behind n p) (place start ps) := by
  induction ps generalizing start with
  | nil => rfl
  | cons q ps ih =>
    rw [place, place, relocate_cons, Position.advanceAll_behind, ih]
    rfl

/-- A text whose last token is a comment that is still open. -/
def endsOpen (text : String) : Bool :=
  (scan text).getLast?.any fun t => t.kind == .comment && isOpenComment t.text.toList

/-- A text whose first token opens a block. -/
def startsBlock (text : String) : Bool :=
  (scan text).head?.any fun t => t.kind == .keyword && (Keyword.ofText? t.text).any (·.startsBlock)

/-- Where a text with a line end after it stops. -/
def stop (text : String) : Position := ({} : Position).advanceAll (text.toList ++ ['\n'])

/-- Behind a text and a line end. -/
def behind (text : String) : Relocation := .behind ((scan text).length + 1) (stop text)

theorem tokenKind_comment {p : Piece} (h : p.kind = .comment) : p.tokenKind = .comment := by
  rw [Piece.tokenKind, if_neg (fun hw => by rw [h] at hw; exact absurd hw.1 (by decide)), h]

theorem endsBefore_of_endsOpen {text : String} (h : endsOpen text = false) (cs : List Char) :
    ∀ p ∈ (pieces text.toList).getLast?, p.EndsBefore ('\n' :: cs) := by
  intro p hp
  refine endsBefore_newline (fun hk => ?_) cs
  -- the last token is that of the last piece
  have hlast := congrArg List.getLast? (map_place {} (pieces text.toList))
  rw [List.getLast?_map, List.getLast?_map, Option.mem_def.1 hp] at hlast
  obtain ⟨t, ht, he⟩ := Option.map_eq_some_iff.1 hlast
  obtain ⟨hkind, htext⟩ := Prod.mk.inj he
  rw [tokenKind_comment hk] at hkind
  have hopen : (t.kind == .comment && isOpenComment t.text.toList) = false := by
    rw [endsOpen, scan, ht] at h
    exact h
  rw [hkind, htext, String.toList_ofList] at hopen
  simpa using hopen

/-- The tokens of two texts with a line end between them. -/
theorem scan_join {t₁ : String} (h : endsOpen t₁ = false) (t₂ : String) :
    ∃ newline : Token, newline.kind = .blank ∧
      scan (t₁ ++ "\n" ++ t₂) = scan t₁ ++ newline :: relocate (behind t₁) (scan t₂) := by
  have hpieces : pieces (t₁ ++ "\n" ++ t₂).toList =
      pieces t₁.toList ++ ⟨.blank, ['\n']⟩ :: pieces t₂.toList := by
    have htext : (t₁ ++ "\n" ++ t₂).toList = t₁.toList ++ '\n' :: t₂.toList := by simp
    rw [htext, pieces_append (endsBefore_of_endsOpen h _), pieces_cons]
    rfl
  -- the second text starts at the beginning of a line
  have hstop : stop t₁ = relocate (behind t₁) ({} : Position) := by
    have hchar : (stop t₁).character = 0 := by
      rw [stop, Position.advanceAll_append]
      rfl
    show stop t₁ = ⟨0 + (stop t₁).line, 0, 0 + (stop t₁).offset⟩
    rw [Nat.zero_add, Nat.zero_add, ← hchar]
  refine ⟨⟨.blank, String.ofList ['\n'], ⟨({} : Position).advanceAll t₁.toList, stop t₁⟩, none, none⟩, rfl, ?_⟩
  have hrest : place (stop t₁) (pieces t₂.toList) = relocate (behind t₁) (scan t₂) := by
    rw [hstop]
    exact place_behind ..
  rw [scan, hpieces, place_append, flatten_pieces, place, ← Position.advanceAll_append, ← hrest]
  rfl

end Token

/-! ### Lexemes and sections -/

namespace Lexeme

/-- Blanks are no lexemes, and the lexemes of moved tokens behind others are moved. -/
theorem ofTokens_join {ts us : List Token} {blank : Token} (hb : blank.kind = .blank) (p : Position) :
    ofTokens (ts ++ blank :: relocate (.behind (ts.length + 1) p) us) =
      ofTokens ts ++ relocate (.behind (ts.length + 1) p) (ofTokens us) := by
  unfold ofTokens
  rw [List.zipIdx_append, List.filterMap_append, List.zipIdx_cons, List.filterMap_cons_none (by simp [hb])]
  refine congrArg _ ?_
  have hidx : (relocate (.behind (ts.length + 1) p) us).zipIdx (0 + ts.length + 1) =
      us.zipIdx.map fun e => (relocate (.behind (ts.length + 1) p) e.1, e.2 + (ts.length + 1)) := by
    rw [relocate_eq_map, List.zipIdx_map, Nat.zero_add, ← Nat.add_zero (ts.length + 1),
      ← List.map_snd_add_zipIdx_eq_zipIdx, List.map_map]
    rfl
  rw [hidx, List.filterMap_map, relocate_eq_map, List.map_filterMap]
  refine List.filterMap_congr fun e _ => ?_
  obtain ⟨⟨kind, text, span, fault, comment⟩, i⟩ := e
  cases kind <;> rfl

end Lexeme

namespace Section

variable {heads : Keyword → Bool}

theorem split_head {m : Lexeme} {k : Keyword} (hk : m.keyword? = some k) (hh : heads k = true)
    (ms : List Lexeme) :
    split heads (m :: ms) = ([], ⟨k, m.ref, (split heads ms).1⟩ :: (split heads ms).2) := by
  simp only [split, hk, hh, if_true]

theorem split_other {l : Lexeme} (h : ∀ k, l.keyword? = some k → heads k = false) (ls : List Lexeme) :
    split heads (l :: ls) = (l :: (split heads ls).1, (split heads ls).2) := by
  cases hk : l.keyword? with
  | none => simp only [split, hk]
  | some k => simp only [split, hk, h k hk, Bool.false_eq_true, if_false]

/-- A keyword starts a new section, whatever comes before it. -/
theorem split_join (ls : List Lexeme) {m : Lexeme} {k : Keyword} (hk : m.keyword? = some k)
    (hh : heads k = true) (ms : List Lexeme) :
    split heads (ls ++ m :: ms) = ((split heads ls).1, (split heads ls).2 ++ (split heads (m :: ms)).2) := by
  induction ls with
  | nil =>
    rw [List.nil_append, split_head hk hh]
    rfl
  | cons l ls ih =>
    rw [List.cons_append]
    by_cases hl : ∃ j, l.keyword? = some j ∧ heads j = true
    · obtain ⟨j, hj, hhj⟩ := hl
      rw [split_head hj hhj, split_head hj hhj, ih, List.cons_append]
    · have hl : ∀ j, l.keyword? = some j → heads j = false := fun j hj =>
        Bool.eq_false_iff.2 fun hhj => hl ⟨j, hj, hhj⟩
      rw [split_other hl, split_other hl, ih]

end Section

namespace Block

theorem ofSections_append (ss ss' : List Section) :
    ofSections (ss ++ ss') = do
      let bs ← ofSections ss
      let bs' ← ofSections ss'
      return bs ++ bs' := by
  induction ss with
  | nil => simp [ofSections]
  | cons s ss ih =>
    rw [List.cons_append, ofSections, ofSections, ih]
    simp only [bind_assoc, pure_bind, List.append_assoc]

theorem declareAll_append (scope : Scope) (bs bs' : List Block) :
    declareAll scope (bs ++ bs') =
      declareAll scope bs >>= fun table => declareAll { scope with table } bs' := by
  induction bs generalizing scope with
  | nil => rfl
  | cons b bs ih =>
    rw [List.cons_append, declareAll, declareAll, bind_assoc]
    exact bind_congr fun table => ih _

end Block

theorem Token.exists_keyword {text : String} (h : startsBlock text = true) :
    ∃ l ls k, Lexeme.ofTokens (scan text) = l :: ls ∧ l.keyword? = some k ∧ k.startsBlock = true := by
  unfold startsBlock at h
  cases hs : scan text with
  | nil => rw [hs] at h; exact absurd h (by decide)
  | cons t ts =>
    rw [hs] at h
    have h : (t.kind == .keyword && (Keyword.ofText? t.text).any (·.startsBlock)) = true := h
    rw [Bool.and_eq_true, beq_iff_eq, Option.any_eq_true] at h
    obtain ⟨hkind, k, hk, hstarts⟩ := h
    obtain ⟨kind, tokenText, span, fault, comment⟩ := t
    cases hkind
    exact ⟨_, _, k, rfl, (if_pos rfl).trans hk, hstarts⟩

theorem Block.readAll_join {t₁ t₂ : String} (h₁ : Token.endsOpen t₁ = false)
    (h₂ : Token.startsBlock t₂ = true) :
    readAll (Token.scan (t₁ ++ "\n" ++ t₂)) = do
      let bs ← readAll (Token.scan t₁)
      let bs' ← relocate (Token.behind t₁) (readAll (Token.scan t₂))
      return bs ++ bs' := by
  obtain ⟨newline, hblank, hscan⟩ := Token.scan_join h₁ t₂
  obtain ⟨l, ls, k, hlexemes, hk, hstarts⟩ := Token.exists_keyword h₂
  have hread : readAll (Token.scan t₂) = ofSections (Section.split Keyword.startsBlock (l :: ls)).2 := by
    rw [readAll, hlexemes, Section.split_head hk hstarts]
    rfl
  rw [hread, ← ofSections_relocate]
  unfold readAll
  rw [hscan, Token.behind, Lexeme.ofTokens_join hblank, hlexemes, relocate_cons,
    Section.split_join _ (m := relocate _ l) hk hstarts, ← relocate_cons, Section.split_relocate]
  simp only [ofSections_append, bind_assoc]
  rfl

namespace Document

/-- Reading and declaring. -/
def checked (scope : Scope) (tokens : List Token) : Noted Table :=
  Block.readAll tokens >>= Block.declareAll scope

/-- What two texts give together is what they give by themselves, the second in the scope that the
first leaves, and moved behind it. First both are read, then both are declared. -/
theorem checked_join {t₁ t₂ : String} (h₁ : Token.endsOpen t₁ = false) (h₂ : Token.startsBlock t₂ = true)
    {scope scope' : Scope}
    (h : scope'.Agree id { scope with table := (checked scope (Token.scan t₁)).value }) :
    ∃ read₁ read₂ declared₁ declared₂ : Notes,
      (checked scope (Token.scan t₁)).notes = read₁ ++ declared₁ ∧
      (checked scope' (Token.scan t₂)).notes = read₂ ++ declared₂ ∧
      (checked scope (Token.scan (t₁ ++ "\n" ++ t₂))).notes =
        read₁ ++ relocate (Token.behind t₁) read₂ ++
          (declared₁ ++ relocate (Token.behind t₁) declared₂) ∧
      scope'.Grown id { scope with table := (checked scope (Token.scan t₁)).value }
        (checked scope' (Token.scan t₂)).value
        (checked scope (Token.scan (t₁ ++ "\n" ++ t₂))).value := by
  have hmatch := Block.matches_declareAll (φ := Token.behind t₁) h
    (Block.follows_relocateAll (Block.readAll (Token.scan t₂)).value)
  refine ⟨_, _, _, _, rfl, rfl, ?_, ?_⟩
  · simp only [checked, Block.readAll_join h₁ h₂, Noted.notes_bind, Noted.value_bind, Noted.notes_pure,
      Noted.value_pure, Notes.append_empty, Block.declareAll_append, Noted.notes_relocate,
      Noted.value_relocate]
    rw [← hmatch.notes]
    rfl
  · simp only [checked, Block.readAll_join h₁ h₂, Noted.value_bind, Noted.value_pure,
      Block.declareAll_append]
    exact hmatch.value

end Document

end Sequitur
