import Sequitur.Decl.Printer
import Sequitur.Proofs.Joining

/-!
# How declarations are spelled

The lexemes of a text, without their places, are those of its characters (`Lexeme.ofChars`). A printed
declaration has the lexemes that its parts give (`Decl.lexemes`), whatever comes after it on the next
line (`Decl.ofChars_render`), as long as its names are words that are scanned as such (`IsName`) and
the form of a term holds no comment.
-/

namespace Sequitur

open Placed (relocate)
open Token (pieces Piece)
open Sequitur.Tree (Stops stops_cons)

/-! ### Lexemes of characters -/

/-- A word at no place. -/
def Token.Ref.named (text : String) : Token.Ref := { text }

namespace Lexeme

def word (s : String) : Lexeme := ⟨.word, .named s⟩

def separator (c : Char) : Lexeme := ⟨.separator, .named (String.ofList [c])⟩

def keyword (k : Keyword) : Lexeme := ⟨.keyword, .named k.text⟩

@[simp] theorem isWord_word (s : String) : (word s).isWord = true := rfl

@[simp] theorem isWord_separator (c : Char) : (separator c).isWord = false := rfl

@[simp] theorem isSeparator_word (s : String) (c : Char) : (word s).isSeparator c = false := rfl

@[simp] theorem isSeparator_keyword (k : Keyword) (c : Char) : (keyword k).isSeparator c = false := rfl

@[simp] theorem isSeparator_separator (c d : Char) : (separator c).isSeparator d = (c == d) := by
  simp [isSeparator, separator, Token.Ref.named]

@[simp] theorem keyword?_word (s : String) : (word s).keyword? = none := rfl

@[simp] theorem keyword?_separator (c : Char) : (separator c).keyword? = none := rfl

@[simp] theorem keyword?_keyword (k : Keyword) : (keyword k).keyword? = some k :=
  (if_pos rfl).trans k.ofText?_text

/-- What a piece of text means; blanks and comments mean nothing. -/
def ofPiece? (p : Piece) : Option Lexeme :=
  if p.kind = .blank ∨ p.kind = .comment then none
  else some ⟨p.tokenKind, .named (String.ofList p.chars)⟩

/-- The lexemes of characters, without places. -/
def ofChars (cs : List Char) : List Lexeme := (pieces cs).filterMap ofPiece?

theorem ref_of_mem_ofChars {cs : List Char} {l : Lexeme} (h : l ∈ ofChars cs) : l.ref = .named l.ref.text := by
  obtain ⟨p, -, hp⟩ := List.mem_filterMap.1 h
  unfold ofPiece? at hp
  split at hp
  · cases hp
  · cases hp
    rfl

/-- Up to places, the lexemes of a text are those of its characters. -/
theorem relocate_ofTokens (text : String) :
    relocate .blank (ofTokens (Token.scan text)) = ofChars text.toList := by
  -- the lexeme of a token, without its place, depends on kind and text only
  let lexeme? : Token.Kind × String → Option Lexeme := fun e =>
    if e.1 = .blank ∨ e.1 = .comment then none else some ⟨e.1, .named e.2⟩
  have htoken : ∀ tokens : List Token, relocate .blank (ofTokens tokens) =
      (tokens.map fun t => (t.kind, t.text)).filterMap lexeme? := by
    intro tokens
    have hfst : tokens = tokens.zipIdx.map Prod.fst := (List.zipIdx_map_fst 0 tokens).symm
    rw [relocate_eq_map, ofTokens, List.map_filterMap]
    conv_rhs => rw [hfst, List.map_map, List.filterMap_map]
    refine List.filterMap_congr fun e _ => ?_
    obtain ⟨⟨kind, text, span, fault, comment⟩, i⟩ := e
    cases kind <;> rfl
  have hpiece : ∀ p : Piece, lexeme? (p.tokenKind, String.ofList p.chars) = ofPiece? p := by
    intro p
    have hkind : p.tokenKind = .blank ∨ p.tokenKind = .comment ↔ p.kind = .blank ∨ p.kind = .comment := by
      unfold Piece.tokenKind
      split
      · next h => rw [h.1]; decide
      · rfl
    exact if_congr hkind rfl rfl
  rw [htoken, Token.scan, Token.map_place, List.filterMap_map]
  exact List.filterMap_congr fun p _ => hpiece p

theorem ofChars_nil : ofChars [] = [] := by
  rw [ofChars, Token.pieces_eq_nil.2 rfl]
  rfl

theorem ofChars_append {cs ds : List Char} (h : ∀ p ∈ (pieces cs).getLast?, p.EndsBefore ds) :
    ofChars (cs ++ ds) = ofChars cs ++ ofChars ds := by
  rw [ofChars, Token.pieces_append h, List.filterMap_append]
  rfl

theorem ofChars_newline (cs : List Char) : ofChars ('\n' :: cs) = ofChars cs := by
  rw [ofChars, Token.pieces_cons]
  rfl

theorem ofChars_space (cs : List Char) : ofChars (' ' :: cs) = ofChars cs := by
  have hrun : ∀ {c : Char} (ds : List Char), Token.isSpace c = true →
      ofChars (c :: ds) = ofChars (ds.dropWhile Token.isSpace) := by
    intro c ds hc
    rw [ofChars, Token.pieces_cons, Token.firstPiece_space hc]
    rfl
  rw [hrun cs rfl]
  cases cs with
  | nil => rfl
  | cons c cs =>
    by_cases hc : Token.isSpace c = true
    · rw [List.dropWhile_cons_of_pos hc, hrun cs hc]
    · rw [List.dropWhile_cons_of_neg hc]

theorem ofChars_separator {c : Char} (hc : Token.isSeparatorChar c = true) (cs : List Char) :
    ofChars (c :: cs) = separator c :: ofChars cs := by
  rw [ofChars, Token.pieces_cons, Token.firstPiece_separator hc]
  rfl

end Lexeme

/-! ### Names -/

/-- A text that is scanned as one word and is no keyword. -/
structure IsName (s : String) : Prop where
  pieces : pieces s.toList = [⟨.word, s.toList⟩]
  keyword : Keyword.ofText? s = none

theorem Token.isName_of_mem_scan {text : String} {t : Token} (h : t ∈ scan text) (hw : t.kind = .word) :
    IsName t.text := by
  obtain ⟨p, hp, hkind, htext⟩ := exists_piece_of_mem_place h
  have htoken : p.tokenKind = .word := by rw [← hkind, hw]
  unfold Piece.tokenKind at htoken
  split at htoken
  · cases htoken
  · next hn =>
    rw [htext]
    refine ⟨?_, ?_⟩
    · rw [String.toList_ofList, pieces_of_mem hp, ← htoken]
    · exact Option.not_isSome_iff_eq_none.1 fun hs => hn ⟨htoken, hs⟩

theorem Lexeme.isName_of_mem_scan {text : String} {l : Lexeme} (h : l ∈ ofTokens (Token.scan text))
    (hw : l.isWord = true) : IsName l.ref.text := by
  obtain ⟨t, ht, hk, he⟩ := exists_token_of_mem h
  rw [he]
  exact Token.isName_of_mem_scan ht (hk ▸ beq_iff_eq.1 hw)

namespace Lexeme

/-- A text that is one word, keyword or not, before a boundary. -/
theorem ofChars_word {s : String} (hs : pieces s.toList = [⟨.word, s.toList⟩]) {cs : List Char}
    (h : Stops cs) :
    ofChars (s.toList ++ cs) = ⟨Piece.tokenKind ⟨.word, s.toList⟩, .named s⟩ :: ofChars cs := by
  rw [ofChars_append, ofChars, hs]
  · simp [ofPiece?]
  · rw [hs]
    rintro p ⟨⟩
    exact h

theorem ofChars_name {s : String} (hs : IsName s) {cs : List Char} (h : Stops cs) :
    ofChars (s.toList ++ cs) = word s :: ofChars cs := by
  have hkind : Piece.tokenKind ⟨.word, s.toList⟩ = .word := by
    rw [Piece.tokenKind, String.ofList_toList, hs.keyword]
    rfl
  rw [ofChars_word hs.pieces h, hkind]
  rfl

theorem ofChars_keyword (k : Keyword) {cs : List Char} (h : Stops cs) :
    ofChars (k.text.toList ++ cs) = keyword k :: ofChars cs := by
  have hpieces : pieces k.text.toList = [⟨.word, k.text.toList⟩] := by
    cases k <;> decide +kernel
  have hkind : Piece.tokenKind ⟨.word, k.text.toList⟩ = .keyword := by
    rw [Piece.tokenKind, String.ofList_toList, k.ofText?_text]
    rfl
  rw [ofChars_word hpieces h, hkind]
  rfl

end Lexeme

open Lexeme

/-! ### Lists -/

section

variable {α : Type} {text : α → String} {lexemes : α → List Lexeme} {as : List α}

/-- Texts with a separator between them. -/
theorem Lexeme.ofChars_separated {sep : String} {c : Char} {ds : List Char} {seps : List Lexeme}
    (hchars : sep.toList = c :: ds) (hc : Token.isBoundary c = true)
    (hsep : ∀ cs, ofChars (c :: (ds ++ cs)) = seps ++ ofChars cs)
    (h : ∀ a ∈ as, ∀ cs, Stops cs → ofChars ((text a).toList ++ cs) = lexemes a ++ ofChars cs)
    {cs : List Char} (hcs : Stops cs) :
    ofChars ((sep.intercalate (as.map text)).toList ++ cs) =
      seps.intercalate (as.map lexemes) ++ ofChars cs := by
  induction as with
  | nil => simp
  | cons a as ih =>
    obtain ⟨ha, has⟩ := List.forall_mem_cons.1 h
    cases as with
    | nil => simpa using ha cs hcs
    | cons b bs =>
      have hb := ih has
      rw [List.map_cons, List.map_cons] at hb ⊢
      simp only [String.intercalate_cons_cons, String.toList_append, List.append_assoc, hchars,
        List.cons_append]
      rw [ha _ (stops_cons hc), hsep, hb, List.map_cons, List.map_cons, List.intercalate_cons_cons]
      simp

/-- Texts with a comma between them. -/
theorem Lexeme.ofChars_intercalate
    (h : ∀ a ∈ as, ∀ cs, Stops cs → ofChars ((text a).toList ++ cs) = lexemes a ++ ofChars cs)
    {cs : List Char} (hcs : Stops cs) :
    ofChars ((", ".intercalate (as.map text)).toList ++ cs) =
      [separator ','].intercalate (as.map lexemes) ++ ofChars cs := by
  have hchars : ", ".toList = [',', ' '] := by simp
  refine ofChars_separated hchars rfl (fun cs => ?_) h hcs
  rw [ofChars_separator rfl, List.singleton_append, ofChars_space]
  rfl

theorem Lexeme.nil_intercalate (lss : List (List Lexeme)) : [].intercalate lss = lss.flatten := by
  induction lss with
  | nil => rfl
  | cons ls lss ih =>
    cases lss with
    | nil => simp
    | cons ms mss => rw [List.intercalate_cons_cons, List.append_nil, ih, ← List.flatten_cons]

/-- Texts with a character between them that means nothing. -/
theorem Lexeme.ofChars_spaced {sep : String} {c : Char} (hchars : sep.toList = [c])
    (hc : Token.isBoundary c = true) (hsep : ∀ cs, ofChars (c :: cs) = ofChars cs)
    (h : ∀ a ∈ as, ∀ cs, Stops cs → ofChars ((text a).toList ++ cs) = lexemes a ++ ofChars cs)
    {cs : List Char} (hcs : Stops cs) :
    ofChars ((sep.intercalate (as.map text)).toList ++ cs) = as.flatMap lexemes ++ ofChars cs := by
  have hspaced := @ofChars_separated _ _ _ as sep c [] [] hchars hc hsep h cs hcs
  rwa [nil_intercalate, ← List.flatMap_def] at hspaced

/-- Texts on a line each. -/
theorem Lexeme.ofChars_lines
    (h : ∀ a ∈ as, ∀ cs, Stops cs → ofChars ((text a).toList ++ cs) = lexemes a ++ ofChars cs) :
    ofChars ("\n".intercalate (as.map text)).toList = as.flatMap lexemes := by
  have hend : Stops [] := fun c hc => absurd hc (by simp)
  have hlines := ofChars_spaced (by simp : "\n".toList = ['\n']) rfl ofChars_newline h hend
  rwa [ofChars_nil, List.append_nil, List.append_nil] at hlines

theorem Tree.stops_join (h : ∀ a cs, Stops ((text a).toList ++ cs))
    (as : List α) {cs : List Char} (hcs : Stops cs) :
    Stops ((String.join (as.map text)).toList ++ cs) := by
  cases as with
  | nil => exact hcs
  | cons a as =>
    rw [List.map_cons, String.join_cons, String.toList_append, List.append_assoc]
    exact h a _

/-- Texts one after the other, each of which starts with a boundary. -/
theorem Lexeme.ofChars_join (hstops : ∀ a cs, Stops ((text a).toList ++ cs))
    (h : ∀ a ∈ as, ∀ cs, Stops cs → ofChars ((text a).toList ++ cs) = lexemes a ++ ofChars cs)
    {cs : List Char} (hcs : Stops cs) :
    ofChars ((String.join (as.map text)).toList ++ cs) = as.flatMap lexemes ++ ofChars cs := by
  induction as with
  | nil => rfl
  | cons a as ih =>
    obtain ⟨ha, has⟩ := List.forall_mem_cons.1 h
    rw [List.map_cons, String.join_cons, String.toList_append, List.append_assoc,
      ha _ (Tree.stops_join hstops as hcs), ih has, List.flatMap_cons, List.append_assoc]

end

/-! ### Trees -/

namespace Tree

mutual
/-- All names of a tree. -/
def names : Tree → List String
  | .node name children => name :: namesAll children
def namesAll : List Tree → List String
  | [] => []
  | t :: ts => names t ++ namesAll ts
end

mutual
/-- The lexemes of a key. -/
def lexemes : Tree → List Lexeme
  | .node name [] => [word name]
  | .node name (t :: ts) => word name :: separator '(' :: (lexemes t ++ lexemesRest ts)
/-- Further arguments and the closing parenthesis. -/
def lexemesRest : List Tree → List Lexeme
  | [] => [separator ')']
  | t :: ts => separator ',' :: (lexemes t ++ lexemesRest ts)
end

mutual
theorem ofChars_spell : ∀ (t : Tree) {cs : List Char}, (∀ n ∈ t.names, IsName n) → Stops cs →
    ofChars (t.spell ++ cs) = t.lexemes ++ ofChars cs
  | .node name [], cs, hn, hcs => by
    rw [spell, lexemes, ofChars_name (hn name (List.mem_cons_self ..)) hcs]
    rfl
  | .node name (t :: ts), cs, hn, _ => by
    have hname := hn name (List.mem_cons_self ..)
    have ht : ∀ n ∈ t.names, IsName n := fun n hm => hn n (by simp [names, namesAll, hm])
    have hts : ∀ n ∈ namesAll ts, IsName n := fun n hm => hn n (by simp [names, namesAll, hm])
    rw [spell, lexemes, List.append_assoc, List.cons_append, ofChars_name hname (stops_cons rfl),
      ofChars_separator rfl, List.append_assoc, ofChars_spell t ht (ends_spellRest_append ts cs).1,
      ofChars_spellRest ts hts]
    simp
theorem ofChars_spellRest : ∀ (ts : List Tree) {cs : List Char}, (∀ n ∈ namesAll ts, IsName n) →
    ofChars (spellRest ts ++ cs) = lexemesRest ts ++ ofChars cs
  | [], cs, _ => by
    rw [spellRest, lexemesRest, List.singleton_append, ofChars_separator rfl]
    rfl
  | t :: ts, cs, hn => by
    have ht : ∀ n ∈ t.names, IsName n := fun n hm => hn n (by simp [namesAll, hm])
    have hts : ∀ n ∈ namesAll ts, IsName n := fun n hm => hn n (by simp [namesAll, hm])
    rw [spellRest, lexemesRest, List.cons_append, ofChars_separator rfl, List.append_assoc,
      ofChars_spell t ht (ends_spellRest_append ts cs).1, ofChars_spellRest ts hts]
    simp
end

theorem lexemes_append_lexemesRest (t : Tree) (ts : List Tree) :
    lexemes t ++ lexemesRest ts = [separator ','].intercalate ((t :: ts).map lexemes) ++ [separator ')'] := by
  induction ts generalizing t with
  | nil => rw [List.map_singleton, List.intercalate_singleton, lexemesRest]
  | cons u us ih =>
    rw [lexemesRest, ih u, List.map_cons, List.map_cons, List.map_cons, List.intercalate_cons_cons]
    simp

theorem namesAll_eq_flatMap (ts : List Tree) : namesAll ts = ts.flatMap names := by
  induction ts with
  | nil => rfl
  | cons t ts ih => rw [namesAll, ih, List.flatMap_cons]

end Tree

/-! ### Parts of declarations -/

def Param.lexemes (p : Param) : List Lexeme := [word p.type.text, word p.name.text]

/-- The lexemes of `(T1 x1, T2 x2)`. -/
def Param.listLexemes (ps : List Param) : List Lexeme :=
  separator '(' :: ([separator ','].intercalate (ps.map lexemes) ++ [separator ')'])

/-- Type and name are names. -/
def Param.Named (p : Param) : Prop := IsName p.type.text ∧ IsName p.name.text

theorem Param.ofChars_renderList {ps : List Param} (h : ∀ p ∈ ps, p.Named) (cs : List Char) :
    ofChars ((renderList ps).toList ++ cs) = listLexemes ps ++ ofChars cs := by
  have hparam : ∀ p ∈ ps, ∀ cs, Stops cs → ofChars (p.render.toList ++ cs) = p.lexemes ++ ofChars cs := by
    intro p hp cs hcs
    simp only [render, String.toList_append, List.append_assoc, String.reduceToList, List.cons_append,
      List.nil_append]
    rw [ofChars_name (h p hp).1 (stops_cons rfl), ofChars_space, ofChars_name (h p hp).2 hcs]
    rfl
  simp only [renderList, String.toList_append, List.append_assoc, String.reduceToList, List.cons_append,
    List.nil_append]
  rw [ofChars_separator rfl, ofChars_intercalate hparam (stops_cons rfl), ofChars_separator rfl]
  simp [listLexemes]

theorem Param.stops_renderList (ps : List Param) (cs : List Char) : Stops ((renderList ps).toList ++ cs) := by
  simp only [renderList, String.toList_append, List.append_assoc, String.reduceToList, List.cons_append]
  exact stops_cons rfl

theorem Term.ofChars_key {t : Term} (h : ∀ n ∈ t.tree.names, IsName n) {cs : List Char} (hcs : Stops cs) :
    ofChars (t.key.toList ++ cs) = t.tree.lexemes ++ ofChars cs := by
  rw [toList_key, Tree.ofChars_spell _ h hcs]

/-- A rule applied to arguments, as a tree. -/
def Step.tree (s : Step) : Tree := .node s.head.text (s.args.map Term.tree)

theorem Step.ofChars_render {s : Step} (h : ∀ n ∈ s.tree.names, IsName n) {cs : List Char}
    (hcs : Stops cs) : ofChars ((s.render .source).toList ++ cs) = s.tree.lexemes ++ ofChars cs := by
  have hhead : IsName s.head.text := h _ (List.mem_cons_self ..)
  have hargs : ∀ t ∈ s.args, ∀ cs, Stops cs → ofChars (t.key.toList ++ cs) = t.tree.lexemes ++ ofChars cs := by
    intro t ht cs hcs
    refine Term.ofChars_key (fun n hn => h n (List.mem_cons_of_mem _ ?_)) hcs
    rw [Tree.namesAll_eq_flatMap, List.flatMap_map]
    exact List.mem_flatMap.2 ⟨t, ht, hn⟩
  unfold render tree
  cases hs : s.args with
  | nil =>
    rw [ofChars_name hhead hcs]
    rfl
  | cons t ts =>
    rw [hs] at hargs
    have hkeys : t.render .source :: Term.keys ts = (t :: ts).map Term.key := by
      rw [Term.keys_eq_map]
      rfl
    simp only [hkeys, String.toList_append, List.append_assoc, String.reduceToList, List.cons_append,
      List.nil_append]
    have hlexemes : (Tree.node s.head.text ((t :: ts).map Term.tree)).lexemes = word s.head.text ::
        separator '(' :: ([separator ','].intercalate ((t :: ts).map (·.tree.lexemes)) ++ [separator ')']) := by
      rw [List.map_cons, Tree.lexemes, Tree.lexemes_append_lexemesRest, ← List.map_cons, List.map_map]
      rfl
    rw [ofChars_name hhead (stops_cons rfl), ofChars_separator rfl,
      ofChars_intercalate hargs (stops_cons rfl), ofChars_separator rfl, hlexemes]
    simp

/-- The lexemes of `(x, y)`. -/
def Rule.groupLexemes (group : List String) : List Lexeme :=
  separator '(' :: ([separator ','].intercalate (group.map fun x => [word x]) ++ [separator ')'])

theorem Rule.ofChars_renderGroup {group : List String} (h : ∀ x ∈ group, IsName x) (cs : List Char) :
    ofChars ((renderGroup group).toList ++ cs) = groupLexemes group ++ ofChars cs := by
  have hname : ∀ x ∈ group, ∀ cs, Stops cs → ofChars (x.toList ++ cs) = [word x] ++ ofChars cs :=
    fun x hx cs hcs => ofChars_name (h x hx) hcs
  have hgroup := @ofChars_intercalate _ id (fun x => [word x]) group hname
  rw [List.map_id] at hgroup
  simp only [renderGroup, String.toList_append, List.append_assoc, String.reduceToList, List.cons_append,
    List.nil_append]
  rw [ofChars_space, ofChars_separator rfl, hgroup (stops_cons rfl), ofChars_separator rfl]
  simp [groupLexemes]

/-- The lexemes of a rule after its keyword: name, parameters and statements. -/
def ruleLexemes (name : String) (ps : List Param) (ss : List (Keyword × List Lexeme)) : List Lexeme :=
  word name :: (Param.listLexemes ps ++
    separator '{' :: (ss.flatMap (fun s => keyword s.1 :: s.2) ++ [separator '}']))

/-- The statements of a rule as they are printed, each with the keyword before it. -/
def Rule.statements (r : Rule) : List (Keyword × List Lexeme) :=
  r.targets.map (fun t => (.target, t.tree.lexemes)) ++
    (r.assumptions.map (fun t => (.assume, t.tree.lexemes)) ++
      if r.groups.isEmpty then [] else [(.distinct, r.groups.flatMap groupLexemes)])

def Rule.lexemes (r : Rule) : List Lexeme := ruleLexemes r.name.text r.params r.statements

/-- What printing a rule and reading it again takes. -/
structure Rule.Printable (r : Rule) : Prop where
  name : IsName r.name.text
  params : ∀ p ∈ r.params, p.Named
  targets_ne_nil : r.targets ≠ []
  targets : ∀ t ∈ r.targets, ∀ n ∈ t.tree.names, IsName n
  assumptions : ∀ t ∈ r.assumptions, ∀ n ∈ t.tree.names, IsName n
  groups : ∀ g ∈ r.groups, 2 ≤ g.length ∧ g.Nodup ∧ g ⊆ r.paramNames

theorem Rule.Printable.isName_of_mem_group {r : Rule} (h : r.Printable) {g : List String} (hg : g ∈ r.groups)
    {x : String} (hx : x ∈ g) : IsName x := by
  obtain ⟨p, hp, rfl⟩ := List.mem_map.1 ((h.groups g hg).2.2 hx)
  exact (h.params p hp).2

/-- Statements, each on a line of its own. -/
def Rule.renderLines (k : Keyword) (ts : List Term) : String :=
  String.join (ts.map fun t => "  " ++ k.text ++ " " ++ t.key ++ "\n")

theorem Rule.stops_renderLines (k : Keyword) (ts : List Term) {cs : List Char} (hcs : Stops cs) :
    Stops ((renderLines k ts).toList ++ cs) := by
  refine Tree.stops_join (fun t cs => ?_) ts hcs
  simp only [String.toList_append, List.append_assoc, String.reduceToList, List.cons_append]
  exact stops_cons rfl

theorem Rule.ofChars_renderLines (k : Keyword) {ts : List Term} (h : ∀ t ∈ ts, ∀ n ∈ t.tree.names, IsName n)
    {cs : List Char} (hcs : Stops cs) :
    ofChars ((renderLines k ts).toList ++ cs) =
      (ts.map fun t => (k, t.tree.lexemes)).flatMap (fun s => keyword s.1 :: s.2) ++ ofChars cs := by
  rw [List.flatMap_map]
  refine ofChars_join (fun t cs => ?_) (fun t ht cs _ => ?_) hcs
  · simp only [String.toList_append, List.append_assoc, String.reduceToList, List.cons_append]
    exact stops_cons rfl
  · simp only [String.toList_append, List.append_assoc, String.reduceToList, List.cons_append, List.nil_append]
    rw [ofChars_space, ofChars_space, ofChars_keyword k (stops_cons rfl), ofChars_space,
      Term.ofChars_key (h t ht) (stops_cons rfl), ofChars_newline]

/-- The line of the distinctness conditions, which is there if there are any. -/
def Rule.renderGroups (groups : List (List String)) : String :=
  if groups.isEmpty then "" else "  diff" ++ String.join (groups.map renderGroup) ++ "\n"

theorem Rule.stops_renderGroup (g : List String) (cs : List Char) : Stops ((renderGroup g).toList ++ cs) := by
  simp only [renderGroup, String.toList_append, List.append_assoc, String.reduceToList, List.cons_append]
  exact stops_cons rfl

theorem Rule.stops_renderGroups (groups : List (List String)) {cs : List Char} (hcs : Stops cs) :
    Stops ((renderGroups groups).toList ++ cs) := by
  unfold renderGroups
  split
  · exact hcs
  · simp only [String.toList_append, List.append_assoc, String.reduceToList, List.cons_append]
    exact stops_cons rfl

theorem Rule.ofChars_renderGroups {groups : List (List String)} (h : ∀ g ∈ groups, ∀ x ∈ g, IsName x)
    (cs : List Char) :
    ofChars ((renderGroups groups).toList ++ cs) =
      (if groups.isEmpty then [] else [(Keyword.distinct, groups.flatMap groupLexemes)]).flatMap
        (fun s => keyword s.1 :: s.2) ++ ofChars cs := by
  unfold renderGroups
  split
  · rfl
  · have hjoin := @ofChars_join _ renderGroup groupLexemes groups stops_renderGroup
      (fun g hg cs _ => ofChars_renderGroup (h g hg) cs)
    rw [show "  diff" = "  " ++ Keyword.distinct.text from rfl]
    simp only [String.toList_append, List.append_assoc, String.reduceToList, List.cons_append, List.nil_append]
    rw [ofChars_space, ofChars_space,
      ofChars_keyword _ (Tree.stops_join stops_renderGroup groups (stops_cons rfl)),
      hjoin (stops_cons rfl), ofChars_newline]
    simp

theorem Rule.render_source (r : Rule) :
    r.render .source = r.name.text ++ Param.renderList r.params ++ " \x7b\n" ++ renderLines .target r.targets ++
      renderLines .assume r.assumptions ++ renderGroups r.groups ++ "\x7d" := rfl

theorem Rule.ofChars_render {r : Rule} (h : r.Printable) (cs : List Char) :
    ofChars ((r.render .source).toList ++ cs) = r.lexemes ++ ofChars cs := by
  have hgroups := stops_renderGroups r.groups (stops_cons (c := '}') (r := cs) rfl)
  have hassumptions := stops_renderLines .assume r.assumptions hgroups
  simp only [render_source, String.toList_append, List.append_assoc, String.reduceToList,
    List.cons_append, List.nil_append]
  rw [ofChars_name h.name (Param.stops_renderList _ _), Param.ofChars_renderList h.params, ofChars_space,
    ofChars_separator rfl, ofChars_newline, ofChars_renderLines .target h.targets hassumptions,
    ofChars_renderLines .assume h.assumptions hgroups,
    ofChars_renderGroups fun g hg x hx => h.isName_of_mem_group hg hx, ofChars_separator rfl]
  simp [lexemes, ruleLexemes, statements]

/-! ### Declarations -/

/-- The lexemes of a term after its keyword. Parentheses are there only if there are parameters. -/
def termLexemes (type name : String) (ps : List Param) (form : List Lexeme) : List Lexeme :=
  word type :: word name :: ((if ps.isEmpty then [] else Param.listLexemes ps) ++
    separator '{' :: (form ++ [separator '}']))

theorem ofChars_term {type name body : String} {ps : List Param} {form : List Lexeme} (htype : IsName type)
    (hname : IsName name) (hps : ∀ p ∈ ps, p.Named)
    (hbody : ∀ cs, ofChars (body.toList ++ '}' :: cs) = form ++ separator '}' :: ofChars cs)
    (cs : List Char) :
    ofChars (("term " ++ type ++ " " ++ name ++ (if ps.isEmpty then "" else Param.renderList ps) ++
      " \x7b" ++ body ++ "\x7d").toList ++ cs) =
      keyword .termDecl :: (termLexemes type name ps form ++ ofChars cs) := by
  have hparams : ∀ cs, ofChars ((if ps.isEmpty then "" else Param.renderList ps).toList ++ cs) =
      (if ps.isEmpty then [] else Param.listLexemes ps) ++ ofChars cs := by
    intro cs
    split
    · rfl
    · exact Param.ofChars_renderList hps cs
  have hstops : ∀ {cs}, Stops cs → Stops ((if ps.isEmpty then "" else Param.renderList ps).toList ++ cs) := by
    intro cs hcs
    split
    · exact hcs
    · exact Param.stops_renderList _ _
  rw [show "term " = Keyword.termDecl.text ++ " " from rfl]
  simp only [String.toList_append, List.append_assoc, String.reduceToList, List.cons_append, List.nil_append]
  rw [ofChars_keyword _ (stops_cons rfl), ofChars_space, ofChars_name htype (stops_cons rfl), ofChars_space,
    ofChars_name hname (hstops (stops_cons rfl)), hparams, ofChars_space, ofChars_separator rfl, hbody]
  simp [termLexemes]

namespace TermDecl

/-- The form of a term as it is printed, its fragments one after the other. -/
def body (d : TermDecl) : String := d.template.render (d.params.map (·.name.text))

def lexemes (d : TermDecl) : List Lexeme :=
  termLexemes d.type.text d.name.text d.params (ofChars d.body.toList)

/-- The words of a term's form, as they are read from its printed form. -/
def content (d : TermDecl) : List String :=
  if (ofChars d.body.toList).isEmpty then [d.name.text] else (ofChars d.body.toList).map (·.ref.text)

/-- The template that the printed form is read as. -/
def reread (d : TermDecl) : Template := .ofForm (d.params.map (·.name.text)) d.content

/-- Fragments that were words apart make no comment and no block keyword when they are printed one
after the other. -/
def Legible (d : TermDecl) : Prop :=
  (∀ p ∈ pieces d.body.toList, p.kind ≠ .comment) ∧
    ∀ l ∈ ofChars d.body.toList, l.keyword?.any (·.startsBlock) = false

instance (d : TermDecl) : Decidable d.Legible := inferInstanceAs (Decidable (_ ∧ _))

structure Printable (d : TermDecl) : Prop where
  type : IsName d.type.text
  name : IsName d.name.text
  params : ∀ p ∈ d.params, p.Named
  legible : d.Legible

theorem ofChars_body {d : TermDecl} (h : d.Legible) (cs : List Char) :
    ofChars (d.body.toList ++ '}' :: cs) = ofChars d.body.toList ++ separator '}' :: ofChars cs := by
  rw [ofChars_append, ofChars_separator rfl]
  intro p hp
  have hcomment := h.1 p (List.mem_of_getLast? hp)
  unfold Piece.EndsBefore
  split
  · rintro d ⟨⟩; rfl
  · refine .inr ?_
    rintro d ⟨⟩; rfl
  · next hk => exact absurd hk hcomment
  · trivial

theorem ofChars_render {d : TermDecl} (h : d.Printable) (cs : List Char) :
    ofChars (d.render.toList ++ cs) = keyword .termDecl :: (d.lexemes ++ ofChars cs) :=
  ofChars_term h.type h.name h.params (ofChars_body h.legible) cs

end TermDecl

def Thm.lexemes (t : Thm) : List Lexeme :=
  t.rule.lexemes ++ separator '=' :: separator '{' ::
    (t.proof.flatMap (·.tree.lexemes) ++ [separator '}'])

namespace Decl

/-- The keyword that a printed declaration starts with. -/
def keyword : Decl → Keyword
  | .type _ => .typeDecl
  | .term _ => .termDecl
  | .axm _ => .axiomDecl
  | .thm _ => .thmDecl

/-- The lexemes after the keyword. -/
def lexemes : Decl → List Lexeme
  | .type d => [word d.name.text]
  | .term d => d.lexemes
  | .axm r => r.lexemes
  | .thm t => t.lexemes

/-- What printing a declaration and reading it again takes. -/
def Printable : Decl → Prop
  | .type d => IsName d.name.text
  | .term d => d.Printable
  | .axm r => r.Printable
  | .thm t => t.rule.Printable ∧ ∀ s ∈ t.proof, ∀ n ∈ s.tree.names, IsName n

theorem ofChars_render {d : Decl} (h : d.Printable) {cs : List Char} (hcs : Stops cs) :
    ofChars ((d.render .source).toList ++ cs) = Lexeme.keyword d.keyword :: (d.lexemes ++ ofChars cs) := by
  cases d with
  | type d =>
    rw [render, show "type " = Keyword.typeDecl.text ++ " " from rfl]
    simp only [String.toList_append, List.append_assoc, String.reduceToList, List.cons_append, List.nil_append]
    rw [ofChars_keyword _ (stops_cons rfl), ofChars_space, ofChars_name h hcs]
    rfl
  | term d => exact d.ofChars_render h cs
  | axm r =>
    rw [render, show "axiom " = Keyword.axiomDecl.text ++ " " from rfl]
    simp only [String.toList_append, List.append_assoc, String.reduceToList, List.cons_append, List.nil_append]
    rw [ofChars_keyword _ (stops_cons rfl), ofChars_space, r.ofChars_render h]
    rfl
  | thm t =>
    have hproof : ∀ cs, Stops cs →
        ofChars ((String.join (t.proof.map fun s => "\n  " ++ s.render .source)).toList ++ cs) =
          t.proof.flatMap (·.tree.lexemes) ++ ofChars cs := by
      refine fun cs hcs => ofChars_join (fun s cs => ?_) (fun s hs cs hcs => ?_) hcs
      · simp only [String.toList_append, List.append_assoc, String.reduceToList, List.cons_append]
        exact stops_cons rfl
      · simp only [String.toList_append, String.reduceToList, List.cons_append,
          List.nil_append]
        rw [ofChars_newline, ofChars_space, ofChars_space, Step.ofChars_render (h.2 s hs) hcs]
    rw [render, show "thm " = Keyword.thmDecl.text ++ " " from rfl]
    simp only [String.toList_append, List.append_assoc, String.reduceToList, List.cons_append, List.nil_append]
    rw [ofChars_keyword _ (stops_cons rfl), ofChars_space, Rule.ofChars_render h.1, ofChars_space,
      ofChars_separator rfl, ofChars_space, ofChars_separator rfl, hproof _ (stops_cons rfl), ofChars_newline,
      ofChars_separator rfl]
    simp [lexemes, Thm.lexemes, keyword]

/-- Declarations, each on a line of its own. -/
def renderAll (ds : List Decl) : String := "\n".intercalate (ds.map (render .source))

theorem ofChars_renderAll {ds : List Decl} (h : ∀ d ∈ ds, d.Printable) :
    ofChars (renderAll ds).toList = ds.flatMap fun d => Lexeme.keyword d.keyword :: d.lexemes :=
  ofChars_lines fun d hd _ hcs => ofChars_render (h d hd) hcs

end Decl

end Sequitur
