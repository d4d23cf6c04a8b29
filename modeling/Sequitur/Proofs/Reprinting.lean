import Sequitur.Proofs.Faithfulness

/-!
# Printing blocks and reading them again

Whatever a text holds, the blocks that are read from it can be printed and read again. They are the same
up to places, and nothing is found wrong with them except what a block lacks itself: the names of a type
block or the targets of a rule (`Block.readAll_renderAll`). There are two halves to this. A block is read
again from its lexemes if they were cut off a text as they stand (`Cut`). And blocks are read from the
sections of a text, whose lexemes are of this sort whatever the reader leaves out of them.
-/

namespace Sequitur

open Placed (relocate)
open Noted Lexeme
open Sequitur.Tree (Stops stops_cons)

/-! ### Lexemes of a text -/

/-- The text of a lexeme is that one lexeme, wherever a word may stop. -/
theorem Lexeme.ofChars_text {ds : List Char} {l : Lexeme} (h : l ∈ ofChars ds) {cs : List Char}
    (hcs : Stops cs) : ofChars (l.ref.text.toList ++ cs) = l :: ofChars cs := by
  obtain ⟨p, hp, hl⟩ := List.mem_filterMap.1 h
  have hpieces := Token.pieces_of_mem hp
  have hkind : ¬(p.kind = .blank ∨ p.kind = .comment) := by
    intro hblank
    rw [ofPiece?, if_pos hblank] at hl
    cases hl
  have hof : ofChars p.chars = [l] := by rw [ofChars, hpieces, List.filterMap_cons, hl]; rfl
  rw [ofPiece?, if_neg hkind, Option.some.injEq] at hl
  have htext : l.ref.text.toList = p.chars := by rw [← hl]; exact String.toList_ofList
  rw [htext, ofChars_append, hof, List.singleton_append]
  rw [hpieces]
  rintro q ⟨⟩
  -- blanks and comments are no lexemes
  unfold Token.Piece.EndsBefore
  split
  · exact hcs
  · next hk => exact absurd (.inl hk) hkind
  · next hk => exact absurd (.inr hk) hkind
  · trivial

/-- Lexemes that were cut off a text between two keywords that start blocks. -/
structure Cut (ls : List Lexeme) : Prop where
  names : ∀ r, WordIn ls r → IsName r.text
  texts : ∀ l ∈ ls, ∀ cs, Stops cs → ofChars (l.ref.text.toList ++ cs) = relocate .blank l :: ofChars cs
  inner : ∀ l ∈ ls, l.Inner

theorem Keyword.text_of_ofText? {s : String} {k : Keyword} (h : ofText? s = some k) : k.text = s := by
  simpa using List.find?_some h

theorem Lexeme.text_of_keyword? {l : Lexeme} {k : Keyword} (h : l.keyword? = some k) : l.ref.text = k.text := by
  unfold keyword? at h
  split at h
  · exact (Keyword.text_of_ofText? h).symm
  · cases h

/-- No section holds a keyword that starts one. -/
theorem Section.inner_split (heads : Keyword → Bool) (ls : List Lexeme) :
    (∀ l ∈ (split heads ls).1, ∀ k, l.keyword? = some k → heads k = false) ∧
      ∀ s ∈ (split heads ls).2, s.head.text = s.keyword.text ∧
        ∀ l ∈ s.body, ∀ k, l.keyword? = some k → heads k = false := by
  induction ls with
  | nil => exact ⟨List.forall_mem_nil _, List.forall_mem_nil _⟩
  | cons l ls ih =>
    obtain ⟨hbody, hsections⟩ := ih
    by_cases hl : ∃ k, l.keyword? = some k ∧ heads k = true
    · obtain ⟨k, hk, hh⟩ := hl
      rw [split_head hk hh]
      exact ⟨List.forall_mem_nil _, List.forall_mem_cons.2 ⟨⟨text_of_keyword? hk, hbody⟩, hsections⟩⟩
    · have hl : ∀ k, l.keyword? = some k → heads k = false := fun k hk =>
        Bool.eq_false_iff.2 fun hh => hl ⟨k, hk, hh⟩
      rw [split_other hl]
      exact ⟨List.forall_mem_cons.2 ⟨hl, hbody⟩, hsections⟩

theorem Section.cut_body {text : String} {s : Section}
    (h : s ∈ (split Keyword.startsBlock (Lexeme.ofTokens (Token.scan text))).2) : Cut s.body where
  names := by
    rintro r ⟨l, hl, hw, rfl⟩
    exact Lexeme.isName_of_mem_scan (body_subset h hl) hw
  texts l hl cs hcs := by
    have hmem : relocate .blank l ∈ ofChars text.toList := by
      rw [← relocate_ofTokens]
      exact List.mem_map_of_mem (body_subset h hl)
    exact ofChars_text hmem hcs
  inner := ((inner_split _ _).2 s h).2

/-! ### Printed expressions -/

namespace Expr

mutual
theorem ofChars_render : ∀ (e : Expr) {cs : List Char}, (∀ r ∈ e.heads, IsName r.text) → Stops cs →
    ofChars (e.render.toList ++ cs) = e.tree.lexemes ++ ofChars cs
  | ⟨head, [], span⟩, cs, h, hcs => by
    rw [render, tree, trees, Tree.lexemes, ofChars_name (h head (List.mem_cons_self ..)) hcs]
    rfl
  | ⟨head, arg :: args, span⟩, cs, h, hcs => by
    have hhead : IsName head.text := h head (List.mem_cons_self ..)
    have harg : ∀ r ∈ arg.heads, IsName r.text := fun r hr => h r (by simp [heads, headsAll, hr])
    have hargs : ∀ r ∈ headsAll args, IsName r.text := fun r hr => h r (by simp [heads, headsAll, hr])
    simp only [render, String.toList_append, List.append_assoc, String.reduceToList, List.cons_append,
      List.nil_append]
    rw [ofChars_name hhead (stops_cons rfl), ofChars_separator rfl,
      ofChars_render arg harg (stops_renderRest args cs), ofChars_renderRest args hargs, tree, trees,
      Tree.lexemes]
    simp
theorem ofChars_renderRest : ∀ (es : List Expr) {cs : List Char}, (∀ r ∈ headsAll es, IsName r.text) →
    ofChars ((renderRest es).toList ++ ')' :: cs) = Tree.lexemesRest (trees es) ++ ofChars cs
  | [], cs, _ => by
    rw [renderRest, trees, Tree.lexemesRest, String.toList_empty, List.nil_append, ofChars_separator rfl]
    rfl
  | e :: es, cs, h => by
    have he : ∀ r ∈ e.heads, IsName r.text := fun r hr => h r (by simp [headsAll, hr])
    have hes : ∀ r ∈ headsAll es, IsName r.text := fun r hr => h r (by simp [headsAll, hr])
    simp only [renderRest, String.toList_append, List.append_assoc, String.reduceToList, List.cons_append,
      List.nil_append]
    rw [ofChars_separator rfl, ofChars_space, ofChars_render e he (stops_renderRest es cs),
      ofChars_renderRest es hes, trees, Tree.lexemesRest]
    simp
theorem stops_renderRest : ∀ (es : List Expr) (cs : List Char), Stops ((renderRest es).toList ++ ')' :: cs)
  | [], cs => by
    rw [renderRest, String.toList_empty, List.nil_append]
    exact stops_cons rfl
  | e :: es, cs => by
    simp only [renderRest, String.toList_append, List.append_assoc, String.reduceToList, List.cons_append]
    exact stops_cons rfl
end

end Expr

/-! ### Printed blocks -/

section

variable {ls : List Lexeme}

theorem Param.ReadFrom.named {p : Param} (h : p.ReadFrom ls) (hls : Cut ls) : p.Named :=
  ⟨hls.names _ h.1, hls.names _ h.2⟩

theorem Expr.ReadFrom.ofChars_render {e : Expr} (h : e.ReadFrom ls) (hls : Cut ls) {cs : List Char}
    (hcs : Stops cs) : ofChars (e.render.toList ++ cs) = e.tree.lexemes ++ ofChars cs :=
  Expr.ofChars_render e (fun r hr => hls.names r (h r hr)) hcs

namespace TermBlock

/-- The lexemes of a term's form. -/
def form (b : TermBlock) : List Lexeme := b.content.flatMap fun r => ofChars r.text.toList

variable {b : TermBlock}

theorem exists_lexeme (h : b.ReadFrom ls) (hls : Cut ls) {r : Token.Ref} (hr : r ∈ b.content) :
    ∃ l : Lexeme, l.Inner ∧ l.ref = relocate .blank r ∧ ofChars r.text.toList = [l] ∧
      ∀ cs, Stops cs → ofChars (r.text.toList ++ cs) = l :: ofChars cs := by
  obtain ⟨l, hl, rfl⟩ := h.content r hr
  have hof := hls.texts l hl [] (fun c hc => absurd hc (by simp))
  rw [List.append_nil, ofChars_nil] at hof
  exact ⟨relocate .blank l, hls.inner l hl, rfl, hof, hls.texts l hl⟩

theorem refs_form (h : b.ReadFrom ls) (hls : Cut ls) : b.form.map (·.ref) = relocate .blank b.content := by
  rw [form, List.map_flatMap, relocate_eq_map, ← List.flatMap_singleton' (b.content.map _), List.flatMap_map]
  refine List.flatMap_congr fun r hr => ?_
  obtain ⟨l, -, href, hof, -⟩ := exists_lexeme h hls hr
  rw [hof, ← href]
  rfl

theorem inner_form (h : b.ReadFrom ls) (hls : Cut ls) : ∀ l ∈ b.form, l.Inner := by
  intro l hl
  obtain ⟨r, hr, hl⟩ := List.mem_flatMap.1 hl
  obtain ⟨m, hm, -, hof, -⟩ := exists_lexeme h hls hr
  rw [hof] at hl
  rw [List.mem_singleton.1 hl]
  exact hm

theorem ofChars_content (h : b.ReadFrom ls) (hls : Cut ls) (cs : List Char) :
    ofChars ((" ".intercalate (b.content.map (·.text))).toList ++ '}' :: cs) =
      b.form ++ separator '}' :: ofChars cs := by
  have hwords : ∀ r ∈ b.content, ∀ cs, Stops cs →
      ofChars (r.text.toList ++ cs) = ofChars r.text.toList ++ ofChars cs := by
    intro r hr cs hcs
    obtain ⟨l, -, -, hof, happend⟩ := exists_lexeme h hls hr
    rw [happend cs hcs, hof, List.singleton_append]
  rw [ofChars_spaced (by simp : " ".toList = [' ']) rfl ofChars_space hwords (stops_cons rfl),
    ofChars_separator rfl]
  rfl

end TermBlock

namespace RuleBlock

/-- The statements of a rule as they are printed, each with the keyword before it. -/
def printed (b : RuleBlock) : List (Keyword × List Lexeme) :=
  b.distinct.map (fun g => (.distinct, Rule.groupLexemes (g.map (·.text)))) ++
    (b.assumptions.map (fun e => (.assume, e.tree.lexemes)) ++
      b.targets.map fun e => (.target, e.tree.lexemes))

def lexemes (b : RuleBlock) : List Lexeme := ruleLexemes b.name.text b.params b.printed

/-- What a rule lacks. -/
def missing (b : RuleBlock) : List Fault := if b.targets.isEmpty then [.targetMissing] else []

/-- Statements of one kind, each on a line of its own. -/
def renderLines (k : Keyword) (es : List Expr) : String :=
  String.join (es.map fun e => "\n  " ++ k.text ++ " " ++ e.render)

def renderGroups (groups : List (List Token.Ref)) : String :=
  String.join (groups.map fun g => "\n  " ++ Keyword.distinct.text ++ " (" ++
    ", ".intercalate (g.map (·.text)) ++ ")")

theorem render_eq (b : RuleBlock) :
    b.render = b.name.text ++ Param.renderList b.params ++ " \x7b" ++ renderGroups b.distinct ++
      renderLines .assume b.assumptions ++ renderLines .target b.targets ++ "\n\x7d" := rfl

theorem stops_renderLine (k : Keyword) (e : Expr) (cs : List Char) :
    Stops (("\n  " ++ k.text ++ " " ++ e.render).toList ++ cs) := by
  simp only [String.toList_append, List.append_assoc, String.reduceToList, List.cons_append]
  exact stops_cons rfl

theorem stops_renderLines (k : Keyword) (es : List Expr) {cs : List Char} (hcs : Stops cs) :
    Stops ((renderLines k es).toList ++ cs) :=
  Tree.stops_join (stops_renderLine k) es hcs

theorem ofChars_renderLines (k : Keyword) {es : List Expr} (h : ∀ e ∈ es, e.ReadFrom ls) (hls : Cut ls)
    {cs : List Char} (hcs : Stops cs) :
    ofChars ((renderLines k es).toList ++ cs) =
      (es.map fun e => (k, e.tree.lexemes)).flatMap (fun s => Lexeme.keyword s.1 :: s.2) ++ ofChars cs := by
  rw [List.flatMap_map]
  refine ofChars_join (stops_renderLine k) (fun e he cs hcs => ?_) hcs
  simp only [String.toList_append, List.append_assoc, String.reduceToList, List.cons_append, List.nil_append]
  rw [ofChars_newline, ofChars_space, ofChars_space, ofChars_keyword k (stops_cons rfl), ofChars_space,
    (h e he).ofChars_render hls hcs]

theorem ofChars_renderGroups {groups : List (List Token.Ref)} (h : ∀ g ∈ groups, ∀ r ∈ g, IsName r.text)
    {cs : List Char} (hcs : Stops cs) :
    ofChars ((renderGroups groups).toList ++ cs) =
      (groups.map fun g => (Keyword.distinct, Rule.groupLexemes (g.map (·.text)))).flatMap
        (fun s => Lexeme.keyword s.1 :: s.2) ++ ofChars cs := by
  rw [List.flatMap_map]
  refine ofChars_join (fun g cs => ?_) (fun g hg cs _ => ?_) hcs
  · simp only [String.toList_append, List.append_assoc, String.reduceToList, List.cons_append]
    exact stops_cons rfl
  · have hgroup := Rule.ofChars_renderGroup (List.forall_mem_map.2 (h g hg)) cs
    simp only [Rule.renderGroup, String.toList_append, List.append_assoc, String.reduceToList,
      List.cons_append, List.nil_append] at hgroup ⊢
    rw [ofChars_newline, ofChars_space, ofChars_space, ofChars_keyword _ (stops_cons rfl), hgroup]

variable {b : RuleBlock}

theorem isName_of_mem_group (h : b.ReadFrom ls) (hls : Cut ls) {g : List Token.Ref} (hg : g ∈ b.distinct)
    {r : Token.Ref} (hr : r ∈ g) : IsName r.text := by
  obtain ⟨p, hp, he⟩ := (h.groups g hg).2.2 r hr
  rw [← he]
  exact hls.names _ (h.params p hp).2

theorem ofChars_render (h : b.ReadFrom ls) (hls : Cut ls) (cs : List Char) :
    ofChars (b.render.toList ++ cs) = b.lexemes ++ ofChars cs := by
  have htargets := stops_renderLines .target b.targets (stops_cons (c := '\n') (r := '}' :: cs) rfl)
  have hassumptions := stops_renderLines .assume b.assumptions htargets
  simp only [render_eq, String.toList_append, List.append_assoc, String.reduceToList, List.cons_append,
    List.nil_append]
  rw [ofChars_name (hls.names _ h.name) (Param.stops_renderList _ _),
    Param.ofChars_renderList fun p hp => (h.params p hp).named hls, ofChars_space, ofChars_separator rfl,
    ofChars_renderGroups (fun g hg r => isName_of_mem_group h hls hg) hassumptions,
    ofChars_renderLines .assume h.assumptions hls htargets,
    ofChars_renderLines .target h.targets hls (stops_cons rfl), ofChars_newline, ofChars_separator rfl]
  simp [lexemes, ruleLexemes, printed]

theorem isStatement_of_mem {s : Keyword × List Lexeme} (hs : s ∈ b.printed) : IsStatement s := by
  unfold printed at hs
  rcases List.mem_append.1 hs with hs | hs
  · obtain ⟨g, -, rfl⟩ := List.mem_map.1 hs
    exact ⟨rfl, Rule.plain_groupLexemes _⟩
  rcases List.mem_append.1 hs with hs | hs
  · obtain ⟨e, -, rfl⟩ := List.mem_map.1 hs
    exact ⟨rfl, e.tree.plain_lexemes⟩
  · obtain ⟨e, -, rfl⟩ := List.mem_map.1 hs
    exact ⟨rfl, e.tree.plain_lexemes⟩

/-- Groups, each in a statement of its own. -/
theorem clean_readDistinct {params : List Param} {gs : List (List String)}
    (h : ∀ g ∈ gs, 2 ≤ g.length ∧ g.Nodup ∧ ∀ x ∈ g, params.any (·.name.text == x) = true)
    (body : Block.Body) :
    ((gs.map fun g => Section.bare (.distinct, Rule.groupLexemes g)).foldlM
      (Block.readStatement params) body).Clean
      { body with distinct := body.distinct ++ gs.map (·.map .named) } := by
  refine @Block.clean_readStatements _ _ .distinct Rule.groupLexemes
    (fun body gs => { body with distinct := body.distinct ++ gs.map (·.map .named) })
    (fun body => by simp) (fun body g gs => by simp) gs (fun body g hg => ?_) body
  have hread := @Block.clean_readGroups params [g] (List.forall_mem_singleton.2 (h g hg))
  rw [List.flatMap_singleton] at hread
  exact hread.bind (clean_pure _)

theorem clean_readPrinted (h : b.ReadFrom ls) :
    ((b.printed.map Section.bare).foldlM
      (Block.readStatement (relocate .blank b.params)) {}).Clean
      ⟨relocate .blank b.targets, relocate .blank b.assumptions, relocate .blank b.distinct⟩ := by
  have hgroups : ∀ g ∈ b.distinct.map (·.map (·.text)), 2 ≤ g.length ∧ g.Nodup ∧
      ∀ x ∈ g, (relocate Relocation.blank b.params).any (·.name.text == x) = true := by
    intro g hg
    obtain ⟨g, hmem, rfl⟩ := List.mem_map.1 hg
    obtain ⟨hlength, hnodup, hparams⟩ := h.groups g hmem
    exact ⟨by simpa using hlength, hnodup, List.forall_mem_map.2 fun r hr =>
      Param.any_relocate_of_exists (hparams r hr)⟩
  have hdistinct := clean_readDistinct hgroups {}
  have hassumptions := @Block.clean_readAssumptions (relocate .blank b.params) (b.assumptions.map Expr.tree)
    ⟨[], [], relocate .blank b.distinct⟩
  have htargets := @Block.clean_readTargets (relocate .blank b.params) (b.targets.map Expr.tree)
    ⟨[], relocate .blank b.assumptions, relocate .blank b.distinct⟩
  rw [Token.Ref.map_named, List.map_map] at hdistinct
  rw [Expr.exprs_map_tree, List.map_map] at hassumptions htargets
  simp only [printed, List.map_append, List.map_map]
  exact clean_foldlM_append hdistinct (clean_foldlM_append hassumptions htargets)

theorem reports_readRule (h : b.ReadFrom ls) {k : Keyword} (hk : b.keyword.text = k.text) (kind : Token.Kind)
    (rest : List Lexeme) :
    (Block.readRule (.named k.text) kind (b.lexemes ++ rest)).Reports (some (relocate .blank b, rest))
      b.missing := by
  have hread := Block.reports_readRule k kind b.name.text (fun s => isStatement_of_mem) (clean_readPrinted h) rest
  rw [isEmpty_relocate, ← hk] at hread
  rw [← hk]
  exact hread

end RuleBlock

namespace Block

/-- The lexemes of a block after its keyword. -/
def lexemes : Block → List Lexeme
  | .types b => b.names.map fun n => word n.text
  | .term b => termLexemes b.type.text b.name.text b.params b.form
  | .axm b => b.lexemes
  | .thm b => b.toRuleBlock.lexemes ++ separator '=' :: separator '{' ::
      (b.proof.flatMap (·.tree.lexemes) ++ [separator '}'])

/-- What a block lacks: a type block its names, a rule its targets. -/
def missing : Block → List Fault
  | .types b => if b.names.isEmpty then [.typeMissing] else []
  | .term _ => []
  | .axm b => b.missing
  | .thm b => b.missing

variable {b : Block}

theorem ofChars_render (h : b.ReadFrom ls) (hls : Cut ls) {cs : List Char} (hcs : Stops cs) :
    ofChars (b.render.toList ++ cs) = Lexeme.keyword b.keyword :: (b.lexemes ++ ofChars cs) := by
  cases b with
  | types b =>
    have hnames : ∀ n ∈ b.names, ∀ cs, Stops cs →
        ofChars (n.text.toList ++ cs) = [word n.text] ++ ofChars cs :=
      fun n hn cs hcs => ofChars_name (hls.names n (h n hn)) hcs
    rw [render, show "type " = Keyword.typeDecl.text ++ " " from rfl]
    simp only [String.toList_append, List.append_assoc, String.reduceToList, List.cons_append, List.nil_append]
    rw [ofChars_keyword _ (stops_cons rfl), ofChars_space,
      ofChars_spaced (by simp : " ".toList = [' ']) rfl ofChars_space hnames hcs]
    simp [keyword, lexemes, List.map_eq_flatMap]
  | term b =>
    exact ofChars_term (hls.names _ h.type) (hls.names _ h.name)
      (fun p hp => (TermBlock.ReadFrom.params h p hp).named hls) (TermBlock.ofChars_content h hls) cs
  | axm b =>
    rw [render, show "axiom " = Keyword.axiomDecl.text ++ " " from rfl]
    simp only [String.toList_append, List.append_assoc, String.reduceToList, List.cons_append, List.nil_append]
    rw [ofChars_keyword _ (stops_cons rfl), ofChars_space, RuleBlock.ofChars_render h hls]
    rfl
  | thm b =>
    have hproof : ∀ cs, Stops cs → ofChars ((String.join (b.proof.map ("\n  " ++ ·.render))).toList ++ cs) =
        b.proof.flatMap (·.tree.lexemes) ++ ofChars cs := by
      refine fun cs hcs => ofChars_join (fun e cs => ?_) (fun e he cs hcs => ?_) hcs
      · simp only [String.toList_append, List.append_assoc, String.reduceToList, List.cons_append]
        exact stops_cons rfl
      · simp only [String.toList_append, String.reduceToList, List.cons_append, List.nil_append]
        rw [ofChars_newline, ofChars_space, ofChars_space, (h.2 e he).ofChars_render hls hcs]
    rw [render, show "thm " = Keyword.thmDecl.text ++ " " from rfl]
    simp only [String.toList_append, List.append_assoc, String.reduceToList, List.cons_append, List.nil_append]
    rw [ofChars_keyword _ (stops_cons rfl), ofChars_space, RuleBlock.ofChars_render h.1 hls, ofChars_space,
      ofChars_separator rfl, ofChars_space, ofChars_separator rfl, hproof _ (stops_cons rfl), ofChars_newline,
      ofChars_separator rfl]
    simp [lexemes, keyword]

theorem inner_lexemes (h : b.ReadFrom ls) (hls : Cut ls) : ∀ l ∈ b.lexemes, l.Inner := by
  cases b with
  | types b => exact List.forall_mem_map.2 fun n _ => inner_word _
  | term b => exact inner_termLexemes (TermBlock.inner_form h hls)
  | axm b => exact inner_ruleLexemes fun s => RuleBlock.isStatement_of_mem
  | thm b =>
    have hproof := inner_proofLexemes (b.proof.map Expr.tree)
    rw [List.flatMap_map] at hproof
    exact List.forall_mem_append.2 ⟨inner_ruleLexemes fun s => RuleBlock.isStatement_of_mem, hproof⟩

/-- The section that a printed block makes. -/
def asSection (b : Block) : Section := .bare (b.keyword, b.lexemes)

/-- A block is read again from its lexemes. -/
theorem reports_ofSection (h : b.ReadFrom ls) (hls : Cut ls) (hhead : b.head.text = b.keyword.text) :
    (ofSection b.asSection).Reports (some (relocate .blank b)) b.missing := by
  cases b with
  | types b =>
    have hread := reports_readTypes (b.names.map (·.text))
    rw [List.isEmpty_map, List.map_map, List.map_map] at hread
    show (some <$> readTypes _ _).Reports _ _
    rw [map_eq_pure_bind]
    refine hread.bind_clean ⟨?_, rfl⟩
    rw [← show b.keyword.text = Keyword.typeDecl.text from hhead]
    rfl
  | term b =>
    have hread := clean_readTerm b.type.text b.name.text b.params b.form
    have hform : b.form.isEmpty = false := by
      rw [← List.isEmpty_map (f := Lexeme.ref), TermBlock.refs_form h hls, isEmpty_relocate]
      exact List.isEmpty_eq_false_iff.2 (TermBlock.ReadFrom.content_ne_nil h)
    rw [hform, TermBlock.refs_form h hls, ← show b.keyword.text = Keyword.termDecl.text from hhead] at hread
    rw [asSection, Section.bare, ← hhead]
    exact reports_nil_iff.2 hread
  | axm b =>
    have hread := RuleBlock.reports_readRule h hhead .axiomName []
    rw [List.append_nil] at hread
    exact hread.bind_clean ((clean_pure ()).bind (clean_pure _))
  | thm b =>
    have hproof := clean_readProof (some (.named "=")) (b.proof.map Expr.tree)
    rw [List.flatMap_map, Expr.exprs_map_tree] at hproof
    refine (RuleBlock.reports_readRule h.1 hhead .thmName _).bind_clean ?_
    exact (clean_pure _).bind (hproof.bind ((clean_pure ()).bind (clean_pure _)))

theorem reports_ofSections {bs : List Block}
    (h : ∀ b ∈ bs, (ofSection b.asSection).Reports (some (relocate .blank b)) b.missing) :
    (ofSections (bs.map asSection)).Reports (relocate .blank bs) (bs.flatMap missing) := by
  induction bs with
  | nil => exact reports_nil_iff.2 (clean_pure [])
  | cons b bs ih =>
    obtain ⟨hb, hbs⟩ := List.forall_mem_cons.1 h
    exact hb.bind ((ih hbs).bind_clean (clean_pure _))

end Block

end

namespace Block

theorem startsBlock_keyword (b : Block) : b.keyword.startsBlock = true := by
  cases b <;> rfl

/-- A block that is read from a text is made of what was cut off the text. -/
theorem exists_cut {text : String} {b : Block} (h : b ∈ (readAll (Token.scan text)).value) :
    ∃ ls, b.ReadFrom ls ∧ Cut ls ∧ b.head.text = b.keyword.text := by
  obtain ⟨s, hs, hstands⟩ := exists_section h
  refine ⟨s.body, hstands.readFrom, Section.cut_body hs, ?_⟩
  rw [hstands.head, hstands.keyword]
  exact ((Section.inner_split _ _).2 s hs).1

/-- Blocks, each on lines of its own. -/
def renderAll (bs : List Block) : String := "\n".intercalate (bs.map render)

/-- The blocks of any text, printed, are read again, and nothing is wrong with them but what they lack. -/
theorem readAll_renderAll (text : String) :
    let blocks := (readAll (Token.scan text)).value
    let again := readAll (Token.scan (renderAll blocks))
    relocate .blank again.value = relocate .blank blocks ∧
      again.notes.diagnostics.map (·.fault) = blocks.flatMap missing := by
  intro blocks again
  have hchars : ofChars (renderAll blocks).toList =
      blocks.flatMap fun b => Lexeme.keyword b.keyword :: b.lexemes := by
    refine ofChars_lines fun b hb cs hcs => ?_
    obtain ⟨ls, hread, hcut, -⟩ := exists_cut hb
    exact ofChars_render hread hcut hcs
  have hinner : ∀ b ∈ blocks, ∀ l ∈ b.lexemes, l.Inner := by
    intro b hb
    obtain ⟨ls, hread, hcut, -⟩ := exists_cut hb
    exact inner_lexemes hread hcut
  have hsplit := @Section.split_flatMap Keyword.startsBlock (blocks.map fun b => (b.keyword, b.lexemes))
    (List.forall_mem_map.2 fun b _ => b.startsBlock_keyword) (List.forall_mem_map.2 hinner)
  rw [List.flatMap_map, List.map_map] at hsplit
  have hagain : relocate .blank again = ofSections (blocks.map asSection) := by
    show relocate .blank (readLexemes _) = _
    rw [← readLexemes_relocate, relocate_ofTokens, hchars, readLexemes, hsplit]
    rfl
  have hreports := @reports_ofSections blocks fun b hb => by
    obtain ⟨ls, hread, hcut, hhead⟩ := exists_cut hb
    exact reports_ofSection hread hcut hhead
  rw [← hagain] at hreports
  refine ⟨hreports.1, ?_⟩
  rw [← hreports.2]
  exact (map_relocate fun d _ => rfl).symm

end Block

end Sequitur
