import Sequitur.Block

/-!
Reading blocks off a token stream. A block runs from its keyword to the next block keyword, so a
fault never reaches beyond the block it stands in. Every missing piece is recorded and reading goes
on with what is there. The tokens themselves stay as they were scanned; what reading learns about
them is in the marks.
-/

namespace Sequitur

/-- A keyword and the lexemes up to the next keyword of its sort. -/
structure Section where
  keyword : Keyword
  head : Token.Ref
  body : List Lexeme
deriving Repr

namespace Section

/-- Cuts lexemes before each keyword that `heads` holds of. The first part are the lexemes before
any of them. -/
def split (heads : Keyword → Bool) : List Lexeme → List Lexeme × List Section
  | [] => ([], [])
  | l :: ls =>
    let (body, sections) := split heads ls
    match l.keyword? with
    | some k => if heads k then ([], ⟨k, l.ref, body⟩ :: sections) else (l :: body, sections)
    | none => (l :: body, sections)

/-- The lexemes of a section, its keyword first. -/
def lexemes (s : Section) : List Lexeme := ⟨.keyword, s.head⟩ :: s.body

/-- Nothing is lost in cutting. -/
theorem split_append (heads : Keyword → Bool) (ls : List Lexeme) :
    (split heads ls).1 ++ (split heads ls).2.flatMap lexemes = ls := by
  induction ls with
  | nil => rfl
  | cons l ls ih =>
    simp only [split]
    split
    · next k hk =>
      have hl : l = ⟨.keyword, l.ref⟩ := by
        obtain ⟨kind, ref⟩ := l
        simp only [Lexeme.keyword?] at hk
        split at hk
        · next h => exact congrArg (Lexeme.mk · ref) h
        · exact absurd hk nofun
      split
      · rw [List.nil_append, List.flatMap_cons, lexemes, ← hl, List.cons_append, ih]
      · rw [List.cons_append, ih]
    · rw [List.cons_append, ih]

end Section

namespace Block

/-- Records one fault at each lexeme. -/
def faultAll (f : Fault) (ls : List Lexeme) : Noted Unit :=
  ls.forM fun l => Noted.fault f l.ref

/-- The last lexeme of a list, or `ref` if there is none. -/
def lastRef (ref : Token.Ref) (ls : List Lexeme) : Token.Ref :=
  (ls.getLast?.map (·.ref)).getD ref

/-- `T1 x1, T2 x2`. One comma after a parameter is skipped. -/
def readParams : List Lexeme → Noted (List Param)
  | [] => pure []
  | type :: ls =>
    if type.isWord then do
      Noted.refine type.ref .typeName
      match ls with
      | [] => do
        Noted.fault .paramNameMissing type.ref
        return []
      | name :: ls =>
        if name.isWord then do
          Noted.refine name.ref .argName
          let params ← match ls with
            | [] => pure []
            | next :: rest =>
              if next.isSeparator ',' then readParams rest else readParams (next :: rest)
          return ⟨type.ref, name.ref⟩ :: params
        else do
          Noted.fault .paramNameMissing name.ref
          readParams ls
    else do
      Noted.fault .paramTypeMissing type.ref
      readParams ls

/-- What stands between parentheses, up to the first lexeme that no parameter list holds. -/
structure ParamList where
  params : List Param
  /-- Whether the closing parenthesis is there. -/
  closed : Bool
  /-- The last token of the list. -/
  last : Token.Ref
  rest : List Lexeme

/-- The parameter list after its opening parenthesis. -/
def readParamList (paren : Token.Ref) (ls : List Lexeme) : Noted ParamList := do
  let inParams := fun (l : Lexeme) => l.isWord || l.isSeparator ','
  let inside := ls.takeWhile inParams
  let params ← readParams inside
  match ls.dropWhile inParams with
  | [] => return ⟨params, false, lastRef paren inside, []⟩
  | close :: rest =>
    if close.isSeparator ')' then return ⟨params, true, close.ref, rest⟩
    else return ⟨params, false, lastRef paren inside, close :: rest⟩

/-- Cuts a list at its first element with a property: what is before it, it, what is after. -/
def cutFirst (p : Lexeme → Bool) : List Lexeme → Option (List Lexeme × Lexeme × List Lexeme)
  | [] => none
  | l :: ls =>
    if p l then some ([], l, ls)
    else (cutFirst p ls).map fun (before, m, after) => (l :: before, m, after)

theorem cutFirst_eq_some {p : Lexeme → Bool} {ls before after : List Lexeme} {m : Lexeme}
    (h : cutFirst p ls = some (before, m, after)) :
    ls = before ++ m :: after ∧ p m = true ∧ ∀ l ∈ before, p l = false := by
  induction ls generalizing before with
  | nil => exact absurd h nofun
  | cons l ls ih =>
    simp only [cutFirst] at h
    split at h
    · next hp =>
      cases h
      exact ⟨rfl, hp, nofun⟩
    · next hp =>
      obtain ⟨⟨before', m', after'⟩, hc, he⟩ := Option.map_eq_some_iff.1 h
      cases he
      obtain ⟨rfl, hm, hb⟩ := ih hc
      refine ⟨rfl, hm, fun x hx => ?_⟩
      rcases List.mem_cons.1 hx with rfl | hx
      · exact Bool.eq_false_iff.2 hp
      · exact hb x hx

/-- Cuts a list at its last element with a property. -/
def cutLast (p : Lexeme → Bool) : List Lexeme → Option (List Lexeme × Lexeme × List Lexeme)
  | [] => none
  | l :: ls =>
    match cutLast p ls with
    | some (before, m, after) => some (l :: before, m, after)
    | none => if p l then some ([], l, ls) else none

theorem cutLast_eq_none {p : Lexeme → Bool} {ls : List Lexeme} (h : cutLast p ls = none) :
    ∀ l ∈ ls, p l = false := by
  induction ls with
  | nil => exact nofun
  | cons l ls ih =>
    simp only [cutLast] at h
    split at h
    · exact absurd h nofun
    · next hc =>
      split at h
      · exact absurd h nofun
      · next hp =>
        intro x hx
        rcases List.mem_cons.1 hx with rfl | hx
        · exact Bool.eq_false_iff.2 hp
        · exact ih hc x hx

theorem cutLast_eq_some {p : Lexeme → Bool} {ls before after : List Lexeme} {m : Lexeme}
    (h : cutLast p ls = some (before, m, after)) :
    ls = before ++ m :: after ∧ p m = true ∧ ∀ l ∈ after, p l = false := by
  induction ls generalizing before with
  | nil => exact absurd h nofun
  | cons l ls ih =>
    simp only [cutLast] at h
    split at h
    · next hc =>
      cases h
      obtain ⟨rfl, hm, ha⟩ := ih hc
      exact ⟨rfl, hm, ha⟩
    · next hc =>
      split at h
      · next hp =>
        cases h
        exact ⟨rfl, hp, cutLast_eq_none hc⟩
      · exact absurd h nofun

/-- `type A B`. -/
def readTypes (keyword : Token.Ref) (ls : List Lexeme) : Noted Block := do
  ls.forM fun l =>
    if l.isWord then Noted.refine l.ref .typeName else Noted.fault .unexpectedToken l.ref
  let names := (ls.filter (·.isWord)).map (·.ref)
  if names.isEmpty then Noted.fault .typeMissing keyword
  return .types ⟨keyword, names, keyword.span.through (lastRef keyword ls).span⟩

/-- The form of a term, between braces: it reaches to the last closing brace, and what is after that
is ignored. Gives the form and the last token of the block. -/
def readForm (last : Token.Ref) : List Lexeme → Noted (List Token.Ref × Token.Ref)
  | [] => pure ([], last)
  | brace :: ls =>
    if brace.isSeparator '{' then
      match cutLast (·.isSeparator '}') ls with
      | some (form, close, _) => pure (form.map (·.ref), close.ref)
      | none => do
        Noted.fault .rightBraceMissing brace.ref
        return (ls.map (·.ref), lastRef brace.ref ls)
    else do
      Noted.fault .leftBraceMissing brace.ref
      return ([], lastRef brace.ref ls)

/-- The optional parameters of a term, the last token up to there and what is left. -/
def readTermParams (name : Token.Ref) : List Lexeme → Noted (List Param × Token.Ref × List Lexeme)
  | [] => pure ([], name, [])
  | paren :: ls =>
    if paren.isSeparator '(' then do
      let list ← readParamList paren.ref ls
      if !list.closed then Noted.fault .rightParenMissing paren.ref
      return (list.params, list.last, list.rest)
    else pure ([], name, paren :: ls)

/-- `term T name(params) { form }`, parameters and form being optional. The form of a term without
parameters is marked as a constant's as a whole. -/
def readTerm (keyword : Token.Ref) : List Lexeme → Noted (Option Block)
  | [] => do
    Noted.fault .typeMissing keyword
    return none
  | type :: ls =>
    if type.isWord then do
      Noted.refine type.ref .typeName
      match ls with
      | [] => do
        Noted.fault .nameMissing type.ref
        return none
      | name :: ls =>
        if name.isWord then do
          let (params, last, ls) ← readTermParams name.ref ls
          let (form, last) ← readForm last ls
          if params.isEmpty then do
            Noted.refine name.ref .constName
            form.forM fun token => Noted.refine token .constName
          else Noted.refine name.ref .termName
          let content := if form.isEmpty then [name.ref] else form
          return some (.term ⟨keyword, type.ref, name.ref, params, content,
            keyword.span.through last.span⟩)
        else do
          Noted.fault .nameMissing name.ref
          return none
    else do
      Noted.fault .typeMissing type.ref
      return none

/-- One lexeme of a `diff` statement, on the groups read so far, latest first, each latest name
first. -/
def readGroupLexeme (params : List Param) (groups : List (List Token.Ref)) (l : Lexeme) :
    Noted (List (List Token.Ref)) :=
  if l.isSeparator '(' then pure ([] :: groups)
  else if l.isWord then
    if params.any (·.name.text == l.ref.text) then do
      Noted.refine l.ref .argName
      match groups with
      | [] => return [[l.ref]]
      | group :: groups =>
        if group.any (·.text == l.ref.text) then do
          Noted.fault .distinctRepeated l.ref
          return group :: groups
        else return (l.ref :: group) :: groups
    else do
      Noted.fault .distinctNotParam l.ref
      return groups
  else pure groups

/-- `(x, y) (y, z)`. Groups of fewer than two names say nothing and are dropped. -/
def readGroups (params : List Param) (ls : List Lexeme) : Noted (List (List Token.Ref)) := do
  let groups := ((← ls.foldlM (readGroupLexeme params) []).map List.reverse).reverse
  groups.forM fun group =>
    match group with
    | [single] => Noted.fault .distinctSingle single
    | _ => pure ()
  return groups.filter fun group => group.length > 1

/-- The statements of a rule. -/
structure Body where
  targets : List Expr := []
  assumptions : List Expr := []
  distinct : List (List Token.Ref) := []

/-- Adds one statement to a body. -/
def readStatement (params : List Param) (body : Body) (s : Section) : Noted Body :=
  match s.keyword with
  | .target => do
    let exprs ← Expr.readAll s.body
    if exprs.isEmpty then Noted.fault .emptyTarget s.head
    return { body with targets := body.targets ++ exprs }
  | .assume => do
    let exprs ← Expr.readAll s.body
    if exprs.isEmpty then Noted.fault .emptyAssumption s.head
    return { body with assumptions := body.assumptions ++ exprs }
  | _ => do
    let groups ← readGroups params s.body
    if groups.isEmpty then Noted.fault .emptyDistinct s.head
    return { body with distinct := body.distinct ++ groups }

def readBody (params : List Param) (ls : List Lexeme) : Noted Body := do
  let (before, sections) := Section.split Keyword.startsStatement ls
  faultAll .bodyKeywordMissing before
  sections.foldlM (readStatement params) {}

/-- What stands between braces, from the lexeme where the opening brace should be up to the first
closing brace. -/
structure Braced where
  inside : List Lexeme
  /-- The closing brace, or the last lexeme of the block. -/
  last : Token.Ref
  rest : List Lexeme

def readBraced (brace : Lexeme) (ls : List Lexeme) : Noted Braced := do
  let opened := brace.isSeparator '{'
  if !opened then Noted.fault .leftBraceMissing brace.ref
  let ls := if opened then ls else brace :: ls
  match cutFirst (·.isSeparator '}') ls with
  | some (inside, close, rest) => return ⟨inside, close.ref, rest⟩
  | none => do
    Noted.fault .rightBraceMissing brace.ref
    return ⟨ls, lastRef brace.ref ls, []⟩

/-- The parameters of a rule, which may be missing. -/
def readRuleParams (name : Token.Ref) : List Lexeme → Noted ParamList
  | [] => do
    Noted.fault .leftParenMissing name
    return ⟨[], true, name, []⟩
  | paren :: ls =>
    if paren.isSeparator '(' then do
      let list ← readParamList paren.ref ls
      if !list.closed then Noted.fault .rightParenMissing list.last
      return list
    else do
      Noted.fault .leftParenMissing name
      return ⟨[], true, name, paren :: ls⟩

/-- What stands between the braces of a rule, which may be missing. -/
def readRuleBraces (list : ParamList) : Noted Braced :=
  match list.rest with
  | [] => do
    Noted.fault .leftBraceMissing list.last
    return ⟨[], list.last, []⟩
  | brace :: ls => readBraced brace ls

/-- `name(params) { body }`, and the lexemes after it. -/
def readRule (keyword : Token.Ref) (kind : Token.Kind) :
    List Lexeme → Noted (Option (RuleBlock × List Lexeme))
  | [] => do
    Noted.fault .nameMissing keyword
    return none
  | name :: ls =>
    if name.isWord then do
      Noted.refine name.ref kind
      let list ← readRuleParams name.ref ls
      let braced ← readRuleBraces list
      let body ← readBody list.params braced.inside
      if body.targets.isEmpty then Noted.fault .targetMissing name.ref
      return some (⟨keyword, name.ref, list.params, body.targets, body.assumptions, body.distinct,
        keyword.span.through braced.last.span⟩, braced.rest)
    else do
      Noted.fault .nameMissing name.ref
      return none

/-- `axiom rule`. -/
def readAxiom (keyword : Token.Ref) (ls : List Lexeme) : Noted (Option Block) := do
  match ← readRule keyword .axiomName ls with
  | none => return none
  | some (rule, rest) => do
    faultAll .unexpectedToken rest
    return some (.axm rule)

/-- The equals sign between statement and proof, if it is there, and what comes after it. -/
def readEquals (name : Token.Ref) : List Lexeme → Noted (Option Token.Ref × List Lexeme)
  | [] => do
    Noted.fault .equalsMissing name
    return (none, [])
  | equals :: ls =>
    if equals.isSeparator '=' then pure (some equals.ref, ls)
    else do
      Noted.fault .equalsMissing name
      return (none, equals :: ls)

/-- The steps of a proof, the last token up to there and what is left. -/
def readProof (last : Option Token.Ref) :
    List Lexeme → Noted (List Expr × Option Token.Ref × List Lexeme)
  | [] => pure ([], last, [])
  | brace :: ls => do
    let braced ← readBraced brace ls
    return (← Expr.readAll braced.inside, some braced.last, braced.rest)

/-- `thm rule = { proof }`. -/
def readThm (keyword : Token.Ref) (ls : List Lexeme) : Noted (Option Block) := do
  match ← readRule keyword .thmName ls with
  | none => return none
  | some (rule, ls) => do
    let (last, ls) ← readEquals rule.name ls
    let (proof, last, ls) ← readProof last ls
    let span := match last with
      | some last => keyword.span.through last.span
      | none => rule.span
    faultAll .unexpectedToken ls
    return some (.thm { rule with span, proof })

/-- The block of a section. -/
def ofSection (s : Section) : Noted (Option Block) :=
  match s.keyword with
  | .typeDecl => some <$> readTypes s.head s.body
  | .termDecl => readTerm s.head s.body
  | .axiomDecl => readAxiom s.head s.body
  | .thmDecl => readThm s.head s.body
  | _ => pure none

/-- The blocks of sections, in order. -/
def ofSections : List Section → Noted (List Block)
  | [] => pure []
  | s :: sections => do
    let block ← ofSection s
    let blocks ← ofSections sections
    return block.toList ++ blocks

/-- The blocks of a token stream. -/
def readAll (tokens : List Token) : Noted (List Block) := do
  let (before, sections) := Section.split Keyword.startsBlock (Lexeme.ofTokens tokens)
  faultAll .unexpectedToken before
  ofSections sections

end Block

end Sequitur
