import Sequitur.Proofs.Joining

/-!
# Later blocks never influence earlier ones

Checking a text with more blocks after it gives all that checking the text gives, and then more
(`Document.isPrefix_check`): the same declarations, diagnostics, tokens and suggestions come first. This
holds for texts with faults as well. The notes that a text leaves are at its own tokens and lines, so
those of what follows come after them in the order of places, and change none of its tokens.
-/

namespace Sequitur

open Placed (relocate)

/-! ### Where notes are -/

/-- Moves tokens from an index on, and positions after a line. -/
def Relocation.past (n line : Nat) : Relocation :=
  { index := fun i => if i < n then i else i + 1
    position := fun p => if p.line ≤ line then p else { p with line := p.line + 1 } }

theorem Relocation.past_eq_self (n line : Nat) {i : Nat} : (past n line).index i = i ↔ i < n := by
  show (if i < n then i else i + 1) = i ↔ _
  split
  · next h => simp [h]
  · next h => simp [h]

/-- The token that a mark changes. -/
def Mark.token : Mark → Nat
  | .refine i _ | .comment i _ => i

namespace Position

theorem line_le_advance (p : Position) (c : Char) : p.line ≤ (p.advance c).line := by
  unfold advance
  split
  · exact Nat.le_succ _
  · exact Nat.le_refl _

theorem line_le_advanceAll (p : Position) (cs : List Char) : p.line ≤ (p.advanceAll cs).line := by
  induction cs generalizing p with
  | nil => exact Nat.le_refl _
  | cons c cs ih => exact Nat.le_trans (line_le_advance p c) (ih _)

theorem relocate_past_eq_self {n line : Nat} {p : Position} :
    relocate (.past n line) p = p ↔ p.line ≤ line := by
  show (if p.line ≤ line then p else { p with line := p.line + 1 }) = p ↔ _
  split
  · next h => simp [h]
  · next h =>
    refine iff_of_false (fun he => ?_) h
    have := congrArg Position.line he
    simp at this

end Position

namespace Token

/-- The line where a text ends. -/
def lastLine (text : String) : Nat := (({} : Position).advanceAll text.toList).line

theorem span_le_of_mem_place {start : Position} {ps : List Piece} {t : Token} (h : t ∈ place start ps) :
    t.span.start.line ≤ (start.advanceAll (ps.flatMap (·.chars))).line ∧
      t.span.stop.line ≤ (start.advanceAll (ps.flatMap (·.chars))).line := by
  induction ps generalizing start with
  | nil => exact absurd h List.not_mem_nil
  | cons p ps ih =>
    rw [List.flatMap_cons, Position.advanceAll_append]
    rcases List.mem_cons.1 h with rfl | h
    · have hstop := Position.line_le_advanceAll (start.advanceAll p.chars) (ps.flatMap (·.chars))
      exact ⟨Nat.le_trans (Position.line_le_advanceAll start p.chars) hstop, hstop⟩
    · exact ih h

/-- The lexemes of a text are at its tokens and lines. -/
theorem relocate_lexemes (text : String) :
    relocate (.past (scan text).length (lastLine text)) (Lexeme.ofTokens (scan text)) =
      Lexeme.ofTokens (scan text) := by
  refine (List.map_congr_left fun l hl => ?_).trans (List.map_id _)
  obtain ⟨e, he, hl⟩ := List.mem_filterMap.1 hl
  obtain ⟨t, i⟩ := e
  have hi := List.mem_zipIdx' he
  have ht : t ∈ scan text := hi.2 ▸ List.getElem_mem _
  have hlines := span_le_of_mem_place ht
  rw [flatten_pieces] at hlines
  have hspan : relocate (.past (scan text).length (lastLine text)) t.span = t.span :=
    congrArg₂ Span.mk (Position.relocate_past_eq_self.2 hlines.1) (Position.relocate_past_eq_self.2 hlines.2)
  have href : relocate (.past (scan text).length (lastLine text)) (t.ref i) = t.ref i := by
    show Ref.mk (if i < (scan text).length then i else i + 1) t.text _ = _
    rw [if_pos hi.1]
    exact congrArg (Ref.mk i t.text) hspan
  simp only at hl
  split at hl
  · exact absurd hl nofun
  · exact absurd hl nofun
  · cases hl
    exact congrArg (Lexeme.mk _) href

end Token

namespace Document

open Token

/-- The notes of a text are at its tokens and lines. -/
theorem relocate_notes (scope : Scope) (text : String) :
    relocate (.past (scan text).length (lastLine text)) (checked scope (scan text)).notes =
      (checked scope (scan text)).notes := by
  have hread := Block.readLexemes_relocate (φ := .past (scan text).length (lastLine text))
    (Lexeme.ofTokens (scan text))
  rw [relocate_lexemes, ← Block.readAll_eq] at hread
  have hblocks : relocate (.past (scan text).length (lastLine text)) (Block.readAll (scan text)).value =
      (Block.readAll (scan text)).value := (congrArg Noted.value hread).symm
  have hdeclare := (Block.matches_declareAll (φ := .past (scan text).length (lastLine text))
    (Scope.Agree.refl id scope) (Block.follows_relocateAll (Block.readAll (scan text)).value)).notes
  rw [hblocks] at hdeclare
  rw [checked, Noted.notes_bind, notes_relocate_append, ← hdeclare]
  exact congrArg (· ++ _) (congrArg Noted.notes hread).symm

variable {scope : Scope} {text : String}

theorem eq_self_of_mem {α : Type} [Placed α] {φ : Relocation} {as : List α} (h : relocate φ as = as) {a : α}
    (ha : a ∈ as) : relocate φ a = a :=
  List.map_inj_left.1 (h.trans (List.map_id as).symm) a ha

theorem diagnostic_within {d : Diagnostic} (h : d ∈ (checked scope (scan text)).notes.diagnostics) :
    d.token < (scan text).length ∧ d.span.start.line ≤ lastLine text := by
  have hd := eq_self_of_mem (congrArg Notes.diagnostics (relocate_notes scope text)) h
  exact ⟨(Relocation.past_eq_self _ (lastLine text)).1 (congrArg Diagnostic.token hd),
    Position.relocate_past_eq_self.1 (congrArg (·.span.start) hd)⟩

theorem mark_within {m : Mark} (h : m ∈ (checked scope (scan text)).notes.marks) :
    m.token < (scan text).length := by
  have hm := eq_self_of_mem (congrArg Notes.marks (relocate_notes scope text)) h
  have htoken := congrArg Mark.token hm
  cases m with
  | refine i kind => exact (Relocation.past_eq_self _ (lastLine text)).1 htoken
  | comment i comment => exact (Relocation.past_eq_self _ (lastLine text)).1 htoken

theorem diagnostic_behind {notes : Notes} {d : Diagnostic}
    (h : d ∈ (relocate (behind text) notes).diagnostics) :
    (scan text).length < d.token ∧ lastLine text < d.span.start.line := by
  obtain ⟨e, -, rfl⟩ := List.mem_map.1 h
  have hline : (stop text).line = lastLine text + 1 := by
    rw [stop, Position.advanceAll_append]
    rfl
  refine ⟨?_, ?_⟩
  · show _ < e.token + ((scan text).length + 1)
    omega
  · show _ < e.span.start.line + (stop text).line
    omega

theorem mark_behind {notes : Notes} {m : Mark} (h : m ∈ (relocate (behind text) notes).marks) :
    (scan text).length < m.token := by
  obtain ⟨e, -, rfl⟩ := List.mem_map.1 h
  cases e with
  | refine i kind =>
    show _ < i + ((scan text).length + 1)
    omega
  | comment i comment =>
    show _ < i + ((scan text).length + 1)
    omega

end Document

/-! ### Order by place -/

theorem Position.comparePlace_eq_gt {p q : Position} :
    p.comparePlace q = .gt ↔ q.line < p.line ∨ p.line = q.line ∧ q.character < p.character := by
  simp [comparePlace, Ordering.then_eq_gt, Nat.compare_eq_gt]

theorem Position.comparePlace_eq_eq {p q : Position} :
    p.comparePlace q = .eq ↔ p.line = q.line ∧ p.character = q.character := by
  simp [comparePlace, Ordering.then_eq_eq]

namespace Diagnostic

/-- The order by which diagnostics are sorted. -/
def le (d e : Diagnostic) : Bool := d.comparePlace e != .gt

theorem le_eq_false {d e : Diagnostic} :
    le d e = false ↔ d.span.start.comparePlace e.span.start = .gt ∨
      d.span.start.comparePlace e.span.start = .eq ∧ d.span.stop.comparePlace e.span.stop = .gt := by
  simp [le, comparePlace, Ordering.then_eq_gt]

theorem le_trans (c d e : Diagnostic) (hcd : le c d = true) (hde : le d e = true) : le c e = true := by
  rw [← Bool.not_eq_false, le_eq_false] at hcd hde ⊢
  simp only [Position.comparePlace_eq_gt, Position.comparePlace_eq_eq] at *
  omega

theorem le_total (d e : Diagnostic) : (le d e || le e d) = true := by
  rw [← Bool.not_eq_false, Bool.or_eq_false_iff, le_eq_false, le_eq_false]
  simp only [Position.comparePlace_eq_gt, Position.comparePlace_eq_eq]
  omega

theorem le_of_line_lt {d e : Diagnostic} (h : d.span.start.line < e.span.start.line) :
    le d e = true ∧ le e d = false := by
  rw [← Bool.not_eq_false, le_eq_false, le_eq_false]
  simp only [Position.comparePlace_eq_gt, Position.comparePlace_eq_eq]
  omega

theorem mem_sort {d : Diagnostic} {ds : List Diagnostic} : d ∈ sort ds ↔ d ∈ ds := List.mem_mergeSort

/-- Sorting inserts each diagnostic before those that it does not come after. -/
theorem sort_cons (d : Diagnostic) (ds : List Diagnostic) :
    sort (d :: ds) = (sort ds).takeWhile (!le d ·) ++ d :: (sort ds).dropWhile (!le d ·) := by
  obtain ⟨l₁, l₂, hcons, hds, hlt⟩ := List.mergeSort_cons le_trans le_total d ds
  have hle : ∀ e ∈ l₂, le d e = true := by
    have hsorted := List.pairwise_mergeSort le_trans le_total (d :: ds)
    rw [hcons] at hsorted
    exact (List.pairwise_cons.1 (List.pairwise_append.1 hsorted).2.1).1
  have hsplit : sort ds = l₁ ++ l₂ := hds
  rw [hsplit, List.takeWhile_append_of_pos hlt, List.dropWhile_append_of_pos hlt]
  refine hcons.trans ?_
  cases l₂ with
  | nil => simp
  | cons e l₂ => simp [hle e (List.mem_cons_self ..)]

/-- Where the diagnostics with a property all come before the others, they can be sorted apart. -/
theorem sort_eq_append {p : Diagnostic → Bool} {ds : List Diagnostic}
    (h : ∀ d ∈ ds, ∀ e ∈ ds, p d = true → p e = false → le d e = true ∧ le e d = false) :
    sort ds = sort (ds.filter p) ++ sort (ds.filter (!p ·)) := by
  induction ds with
  | nil => simp [sort]
  | cons d ds ih =>
    have hds := ih fun e he f hf => h e (List.mem_cons_of_mem _ he) f (List.mem_cons_of_mem _ hf)
    have hmem : ∀ {q : Diagnostic → Bool} {e : Diagnostic}, e ∈ sort (ds.filter q) → e ∈ ds ∧ q e = true :=
      fun he => List.mem_filter.1 (mem_sort.1 he)
    rw [sort_cons, hds]
    cases hp : p d with
    | true =>
      -- it does not come after any of the others
      have hend : ∀ e ∈ (sort (ds.filter (!p ·))).head?, (!le d e) = false := by
        intro e he
        obtain ⟨he, hpe⟩ := hmem (List.mem_of_head? he)
        rw [(h d (List.mem_cons_self ..) e (List.mem_cons_of_mem _ he) hp (by simpa using hpe)).1]
        rfl
      have hspan := Token.span_append (.inr hend : (sort (ds.filter p)).dropWhile (!le d ·) ≠ [] ∨ _)
      rw [List.filter_cons_of_pos hp, List.filter_cons_of_neg (by simp [hp]), sort_cons, hspan.1, hspan.2]
      simp
    | false =>
      have hall : ∀ e ∈ sort (ds.filter p), (!le d e) = true := by
        intro e he
        obtain ⟨he, hpe⟩ := hmem he
        rw [(h e (List.mem_cons_of_mem _ he) d (List.mem_cons_self ..) hpe hp).2]
        rfl
      rw [List.filter_cons_of_neg (by simp [hp]), List.filter_cons_of_pos (by simp [hp]), sort_cons,
        List.takeWhile_append_of_pos hall, List.dropWhile_append_of_pos hall, List.append_assoc]

/-- Diagnostics behind a text are in the same order as by themselves. -/
theorem sort_behind (text : String) (ds : List Diagnostic) :
    sort (relocate (Token.behind text) ds) = relocate (Token.behind text) (sort ds) := by
  have hplace : ∀ p q : Position, Position.comparePlace (relocate (Token.behind text) p)
      (relocate (Token.behind text) q) = p.comparePlace q := by
    intro p q
    show (compare (p.line + _) (q.line + _)).then (compare p.character q.character) = _
    rw [Nat.compare_eq_ite_lt, Position.comparePlace, Nat.compare_eq_ite_lt p.line]
    simp only [Nat.add_lt_add_iff_right]
  have hcompare : ∀ d e : Diagnostic, comparePlace (relocate (Token.behind text) d)
      (relocate (Token.behind text) e) = d.comparePlace e := by
    intro d e
    exact congrArg₂ Ordering.then (hplace d.span.start e.span.start) (hplace d.span.stop e.span.stop)
  refine (List.map_mergeSort fun d _ e _ => ?_).symm
  rw [hcompare]

end Diagnostic

/-! ### Tokens -/

theorem take_foldl_modify {α : Type} (index : α → Nat) (change : α → Token → Token) (n : Nat) (as : List α)
    (ts : List Token) :
    (as.foldl (fun ts a => ts.modify (index a) (change a)) ts).take n =
      (as.filter (index · < n)).foldl (fun ts a => ts.modify (index a) (change a)) (ts.take n) := by
  induction as generalizing ts with
  | nil => rfl
  | cons a as ih =>
    rw [List.foldl_cons, ih, List.take_modify]
    by_cases ha : index a < n
    · rw [List.filter_cons_of_pos (by simpa using ha), List.foldl_cons]
    · rw [List.filter_cons_of_neg (by simpa using ha), List.modify_eq_self (by simp; omega)]

/-- What a mark makes of its token. -/
def Mark.change : Mark → Token → Token
  | .refine _ kind, t => { t with kind }
  | .comment _ text, t => { t with comment := some text }

theorem Mark.toList_applyAll (marks : List Mark) (tokens : Array Token) :
    (applyAll marks tokens).toList =
      marks.foldl (fun ts m => ts.modify m.token m.change) tokens.toList := by
  induction marks generalizing tokens with
  | nil => rfl
  | cons m marks ih =>
    refine (ih _).trans ?_
    cases m with
    | refine i kind => exact congrArg (marks.foldl _ ·) Array.toList_modify
    | comment i text => exact congrArg (marks.foldl _ ·) Array.toList_modify

namespace Document

open Token

def flagToken (d : Diagnostic) (t : Token) : Token := { t with fault := t.fault.or (some d.fault) }

theorem toList_flagAll (ds : List Diagnostic) (tokens : Array Token) :
    (ds.foldl flag tokens).toList = ds.foldl (fun ts d => ts.modify d.token (flagToken d)) tokens.toList := by
  induction ds generalizing tokens with
  | nil => rfl
  | cons d ds ih =>
    refine (ih _).trans ?_
    exact congrArg (ds.foldl _ ·) Array.toList_modify

theorem toList_tokens (scope : Scope) (tokens : List Token) :
    (ofTokens scope tokens).tokens.toList =
      (ofTokens scope tokens).diagnostics.foldl (fun ts d => ts.modify d.token (flagToken d))
        ((checked scope tokens).notes.marks.foldl (fun ts m => ts.modify m.token m.change) tokens) := by
  show ((ofTokens scope tokens).diagnostics.foldl flag _).toList = _
  rw [toList_flagAll, Mark.toList_applyAll]
  rfl

variable {t₁ t₂ : String} {scope scope' : Scope}

theorem filter_interleaved {α : Type} {p : α → Bool} {as bs cs ds : List α}
    (hac : ∀ a ∈ as ++ cs, p a = true) (hbd : ∀ b ∈ bs ++ ds, p b = false) :
    (as ++ bs ++ (cs ++ ds)).filter p = as ++ cs ∧ (as ++ bs ++ (cs ++ ds)).filter (!p ·) = bs ++ ds := by
  simp only [List.forall_mem_append] at hac hbd
  have hkeep : ∀ {l : List α}, (∀ a ∈ l, p a = true) → l.filter p = l ∧ l.filter (!p ·) = [] := fun h =>
    ⟨List.filter_eq_self.2 h, List.filter_eq_nil_iff.2 fun a ha => by simp [h a ha]⟩
  have hdrop : ∀ {l : List α}, (∀ a ∈ l, p a = false) → l.filter p = [] ∧ l.filter (!p ·) = l := fun h =>
    ⟨List.filter_eq_nil_iff.2 fun a ha => by simp [h a ha], List.filter_eq_self.2 fun a ha => by simp [h a ha]⟩
  simp only [List.filter_append, hkeep hac.1, hkeep hac.2, hdrop hbd.1, hdrop hbd.2, List.append_nil,
    List.nil_append, and_self]

/-- The notes at the tokens of the first of two texts are those it leaves by itself. The other ones are
those that the second leaves, moved. -/
theorem notes_join (h₁ : endsOpen t₁ = false) (h₂ : startsBlock t₂ = true)
    (h : scope'.Agree id { scope with table := (ofTokens scope (scan t₁)).table }) :
    let notes := (checked scope (scan (t₁ ++ "\n" ++ t₂))).notes
    notes.diagnostics.filter (fun d => d.token < (scan t₁).length) =
        (checked scope (scan t₁)).notes.diagnostics ∧
      notes.diagnostics.filter (fun d => !decide (d.token < (scan t₁).length)) =
        relocate (behind t₁) (checked scope' (scan t₂)).notes.diagnostics ∧
      notes.marks.filter (fun m => m.token < (scan t₁).length) = (checked scope (scan t₁)).notes.marks := by
  obtain ⟨read₁, read₂, declared₁, declared₂, hn₁, hn₂, hn, -⟩ := checked_join h₁ h₂ h
  have hdiagnostics : ∀ d ∈ (checked scope (scan t₁)).notes.diagnostics, d.token < (scan t₁).length :=
    fun d hd => (diagnostic_within hd).1
  have hmarks : ∀ m ∈ (checked scope (scan t₁)).notes.marks, m.token < (scan t₁).length :=
    fun m hm => mark_within hm
  have hdiagnostics' : ∀ d ∈ (relocate (behind t₁) (read₂ ++ declared₂)).diagnostics,
      ¬d.token < (scan t₁).length := fun d hd => Nat.not_lt.2 (Nat.le_of_lt (diagnostic_behind hd).1)
  have hmarks' : ∀ m ∈ (relocate (behind t₁) (read₂ ++ declared₂)).marks, ¬m.token < (scan t₁).length :=
    fun m hm => Nat.not_lt.2 (Nat.le_of_lt (mark_behind hm))
  rw [hn₁] at hdiagnostics hmarks
  rw [notes_relocate_append] at hdiagnostics' hmarks'
  have hd := filter_interleaved (p := fun d => decide (d.token < (scan t₁).length))
    (fun d hd => decide_eq_true (hdiagnostics d hd)) fun d hd => decide_eq_false (hdiagnostics' d hd)
  have hm := filter_interleaved (p := fun m => decide (m.token < (scan t₁).length))
    (fun m hm => decide_eq_true (hmarks m hm)) fun m hm => decide_eq_false (hmarks' m hm)
  simp only [hn, hn₁, hn₂]
  refine ⟨hd.1, hd.2.trans ?_, hm.1⟩
  rw [Notes.diagnostics_append, relocate_append]
  rfl

/-- The diagnostics of two texts are those of the first, and then those of the second, moved. -/
theorem diagnostics_join (h₁ : endsOpen t₁ = false) (h₂ : startsBlock t₂ = true)
    (h : scope'.Agree id { scope with table := (ofTokens scope (scan t₁)).table }) :
    (ofTokens scope (scan (t₁ ++ "\n" ++ t₂))).diagnostics = (ofTokens scope (scan t₁)).diagnostics ++
      relocate (behind t₁) (ofTokens scope' (scan t₂)).diagnostics := by
  obtain ⟨hfirst, hsecond, -⟩ := notes_join h₁ h₂ h
  have hbefore : ∀ d ∈ (checked scope (scan t₁)).notes.diagnostics,
      ∀ e ∈ relocate (behind t₁) (checked scope' (scan t₂)).notes.diagnostics,
      Diagnostic.le d e = true ∧ Diagnostic.le e d = false := by
    intro d hd e he
    have he : e ∈ (relocate (behind t₁) (checked scope' (scan t₂)).notes).diagnostics := he
    exact Diagnostic.le_of_line_lt (Nat.lt_of_le_of_lt (diagnostic_within hd).2 (diagnostic_behind he).2)
  rw [← hfirst, ← hsecond] at hbefore
  have hsort := Diagnostic.sort_eq_append (p := fun d => decide (d.token < (scan t₁).length))
    fun d hd e he hpd hpe => hbefore d (List.mem_filter.2 ⟨hd, hpd⟩) e
      (List.mem_filter.2 ⟨he, by simpa using hpe⟩)
  rw [hfirst, hsecond, Diagnostic.sort_behind] at hsort
  exact hsort

/-- The tokens of the first of two texts. -/
theorem take_tokens_join (h₁ : endsOpen t₁ = false) (h₂ : startsBlock t₂ = true) :
    (ofTokens scope (scan (t₁ ++ "\n" ++ t₂))).tokens.toList.take (scan t₁).length =
      (ofTokens scope (scan t₁)).tokens.toList := by
  have hagree := Scope.Agree.refl id { scope with table := (ofTokens scope (scan t₁)).table }
  obtain ⟨newline, -, hscan⟩ := scan_join h₁ t₂
  obtain ⟨-, -, hmarks⟩ := notes_join h₁ h₂ hagree
  have hdiagnostics : (ofTokens scope (scan (t₁ ++ "\n" ++ t₂))).diagnostics.filter
      (fun d => d.token < (scan t₁).length) = (ofTokens scope (scan t₁)).diagnostics := by
    rw [diagnostics_join h₁ h₂ hagree, List.filter_append, List.filter_eq_self.2, List.filter_eq_nil_iff.2,
      List.append_nil]
    · intro d hd
      have hbehind := @diagnostic_behind t₁ ⟨_, []⟩ d hd
      exact fun hlt => Nat.lt_asymm hbehind.1 (of_decide_eq_true hlt)
    · exact fun d hd => decide_eq_true (diagnostic_within (Diagnostic.mem_sort.1 hd)).1
  rw [toList_tokens, toList_tokens, take_foldl_modify, take_foldl_modify, hmarks, hdiagnostics, hscan,
    List.take_left]

/-- All that checking a text gives comes first when more blocks follow it. -/
theorem isPrefix_check (imports : List Table) (searchLimit : Nat) {t₁ t₂ : String}
    (h₁ : endsOpen t₁ = false) (h₂ : startsBlock t₂ = true) :
    (check imports searchLimit t₁).decls <+: (check imports searchLimit (t₁ ++ "\n" ++ t₂)).decls ∧
      (check imports searchLimit t₁).diagnostics <+:
        (check imports searchLimit (t₁ ++ "\n" ++ t₂)).diagnostics ∧
      (check imports searchLimit t₁).tokens.toList <+:
        (check imports searchLimit (t₁ ++ "\n" ++ t₂)).tokens.toList ∧
      (check imports searchLimit t₁).suggestions <+:
        (check imports searchLimit (t₁ ++ "\n" ++ t₂)).suggestions := by
  let scope : Scope := { imports, searchLimit }
  have hagree := Scope.Agree.refl id { scope with table := (ofTokens scope (scan t₁)).table }
  obtain ⟨-, -, -, -, -, -, -, -, ds, -, hdecls, -⟩ := checked_join h₁ h₂ hagree
  have hdecls : (check imports searchLimit (t₁ ++ "\n" ++ t₂)).decls =
      (check imports searchLimit t₁).decls ++ ds := hdecls
  refine ⟨⟨ds, hdecls.symm⟩, ⟨_, (diagnostics_join h₁ h₂ hagree).symm⟩, ?_, ?_⟩
  · exact (@take_tokens_join t₁ t₂ scope h₁ h₂) ▸ List.take_prefix ..
  · refine ⟨ds.flatMap Suggestion.ofDecl, ?_⟩
    show (check imports searchLimit t₁).decls.flatMap Suggestion.ofDecl ++ _ =
      (check imports searchLimit (t₁ ++ "\n" ++ t₂)).decls.flatMap Suggestion.ofDecl
    rw [hdecls, List.flatMap_append]

/-- A text with a call that is not closed, a name and a type that are unknown and a proof that leaves
its goal. -/
def unfinished : String :=
  "type W term W c axiom a(W x) { |- x }
thm b() { |- c } = { a(c b(d } term V v // open"

/-- Blocks that would have made up for some of it, and one with a useless step and an unknown rule. -/
def remedy : String :=
  "type V term W d thm e() { |- c } = { a(c) } thm f() { |- d } = { a(c) g }"

theorem isPrefix_check_unfinished : endsOpen unfinished = false ∧ startsBlock remedy = true ∧
    (check [] 5 unfinished).decls <+: (check [] 5 (unfinished ++ "\n" ++ remedy)).decls ∧
    (check [] 5 unfinished).diagnostics <+: (check [] 5 (unfinished ++ "\n" ++ remedy)).diagnostics ∧
    (check [] 5 unfinished).tokens.toList <+: (check [] 5 (unfinished ++ "\n" ++ remedy)).tokens.toList ∧
    (check [] 5 unfinished).suggestions <+: (check [] 5 (unfinished ++ "\n" ++ remedy)).suggestions := by
  have h₁ : endsOpen unfinished = false := by decide +kernel
  have h₂ : startsBlock remedy = true := by decide +kernel
  exact ⟨h₁, h₂, isPrefix_check [] 5 h₁ h₂⟩

end Document

end Sequitur
