import Sequitur.Proofs.Accounting
import Sequitur.Proofs.Nesting

/-!
# Words of a text that is read without faults

If reading a text finds no fault, each of its words is in a block, but for the words behind the last
closing brace of a term, which are in none (`Block.mem_words_iff`). Every reader takes the words at the
front of what it is given and leaves the others (`Leaves`), and nothing but a term is done while words
are left.
-/

namespace Sequitur

open Noted

namespace Noted

variable {α β ι : Type}

theorem ensures_lone_fault {k : Fault} {token : Token.Ref} {Q : Unit → Prop} : (fault k token).Ensures Q :=
  fun h => absurd h (List.cons_ne_nil _ _)

theorem ensures_forM {f : α → Noted Unit} {P : α → Prop} (hf : ∀ a, (f a).Ensures fun _ => P a) (as : List α) :
    (as.forM f).Ensures fun _ => ∀ a ∈ as, P a := by
  induction as with
  | nil => exact ensures_pure (List.forall_mem_nil _)
  | cons a as ih =>
    show (f a >>= fun _ => as.forM f).Ensures _
    exact ensures_bind (hf a) fun _ ha => fun h => List.forall_mem_cons.2 ⟨ha, ih h⟩

/-- What one step adds and keeps is there after all steps. -/
theorem ensures_foldlM {f : β → α → Noted β} {Held : β → ι → Prop} {Has : α → ι → Prop}
    (hf : ∀ b a, (f b a).Ensures fun c => ∀ i, Held b i ∨ Has a i → Held c i) (as : List α) (b : β) :
    (as.foldlM f b).Ensures fun c => ∀ i, (Held b i ∨ ∃ a ∈ as, Has a i) → Held c i := by
  induction as generalizing b with
  | nil => exact ensures_pure fun i hi => hi.resolve_right (by simp)
  | cons a as ih =>
    rw [List.foldlM_cons]
    refine ensures_bind (hf b a) fun c hc => fun h i hi => ih c h i ?_
    rcases hi with hi | ⟨a', ha', hi⟩
    · exact .inl (hc i (.inl hi))
    · rcases List.mem_cons.1 ha' with rfl | ha'
      · exact .inl (hc i (.inr hi))
      · exact .inr ⟨a', ha', hi⟩

end Noted

section

variable {ls ms rest : List Lexeme} {l : Lexeme} {r : Token.Ref} {rs qs : List Token.Ref}

@[simp] theorem wordIn_nil : ¬WordIn [] r := by simp [WordIn]

@[simp] theorem wordIn_cons : WordIn (l :: ls) r ↔ l.isWord = true ∧ l.ref = r ∨ WordIn ls r := by
  simp [WordIn]

@[simp] theorem wordIn_append : WordIn (ls ++ ms) r ↔ WordIn ls r ∨ WordIn ms r := by
  simp [WordIn, or_and_right, exists_or]

/-- Every word of `ls` is one of the tokens `rs` or a word of `rest`. -/
def Leaves (ls : List Lexeme) (rs : List Token.Ref) (rest : List Lexeme) : Prop :=
  ∀ r, WordIn ls r → r ∈ rs ∨ WordIn rest r

namespace Leaves

/-- If nothing is left, all words are taken. -/
theorem mem (h : Leaves ls rs []) (hr : WordIn ls r) : r ∈ rs := (h r hr).resolve_right wordIn_nil

/-- Words inside are taken, and the others are left. -/
theorem of_inside {inside : List Lexeme} (h : ∀ r, WordIn ls r → WordIn inside r ∨ WordIn rest r)
    (hinside : Leaves inside rs []) : Leaves ls rs rest :=
  fun r hr => (h r hr).imp_left hinside.mem

theorem trans (h : Leaves ls rs ms) (h' : Leaves ms qs rest) : Leaves ls (rs ++ qs) rest := by
  intro r hr
  rcases h r hr with hr | hr
  · exact .inl (List.mem_append_left _ hr)
  · exact (h' r hr).imp_left (List.mem_append_right _)

theorem cons_word (h : Leaves ls rs rest) : Leaves (l :: ls) (l.ref :: rs) rest := by
  intro r hr
  rcases wordIn_cons.1 hr with ⟨-, rfl⟩ | hr
  · exact .inl (List.mem_cons_self ..)
  · exact (h r hr).imp_left (List.mem_cons_of_mem _)

theorem cons_separator {c : Char} (hl : l.isSeparator c = true) (h : Leaves ls rs rest) :
    Leaves (l :: ls) rs rest := by
  intro r hr
  rw [wordIn_cons, Expr.isWord_of_isSeparator hl] at hr
  exact h r (hr.resolve_left (by simp))

end Leaves

end

/-- Where nothing stands before the first keyword, all words are in the sections. -/
theorem Section.exists_wordIn {heads : Keyword → Bool} {ls : List Lexeme}
    (hnil : (split heads ls).1 = []) {r : Token.Ref} (hr : WordIn ls r) :
    ∃ s ∈ (split heads ls).2, WordIn s.body r := by
  rw [← split_append heads ls, hnil, List.nil_append] at hr
  obtain ⟨l, hl, hw, hlr⟩ := hr
  obtain ⟨s, hs, hl⟩ := List.mem_flatMap.1 hl
  rcases List.mem_cons.1 hl with rfl | hl
  · cases hw
  · exact ⟨s, hs, l, hl, hw, hlr⟩

theorem Expr.headsAll_append (es es' : List Expr) : headsAll (es ++ es') = headsAll es ++ headsAll es' := by
  induction es with
  | nil => rfl
  | cons e es ih => rw [List.cons_append, headsAll, headsAll, ih, List.append_assoc]

/-- Where no call is left open, every word is the head of an expression. -/
theorem Expr.leaves_readAll (ls : List Lexeme) :
    (readAll ls).Ensures fun es => Leaves ls (headsAll es) [] := by
  intro hclean r ⟨l, hl, hw, hlr⟩
  obtain ⟨hexprs, hfaults⟩ := settle_eq (shift [] ls).value.reverse
  have hunclosed : (shift [] ls).value.reverse.filterMap Item.unclosed? = [] := by
    have hsettle : (settle (shift [] ls).value.reverse).notes.diagnostics = [] :=
      (List.append_eq_nil_iff.1 hclean).2
    exact List.map_eq_nil_iff.1 (hfaults ▸ hsettle)
  have hheads : (shift [] ls).value.reverse.flatMap Item.heads = (ls.filter (·.isWord)).map (·.ref) := by
    rw [← stackHeads_eq]
    exact yields_shift [] ls
  have hperm := perm_heads (shift [] ls).value.reverse
  rw [hunclosed, List.append_nil, ← hexprs, hheads] at hperm
  exact .inl (hperm.mem_iff.2 (List.mem_map.2 ⟨l, List.mem_filter.2 ⟨hl, hw⟩, hlr⟩))

namespace Block

theorem ensures_faultAll (f : Fault) (ls : List Lexeme) : (faultAll f ls).Ensures fun _ => ls = [] :=
  fun h => List.eq_nil_iff_forall_not_mem.2 (ensures_forM (P := fun _ => False) (fun _ => ensures_lone_fault) ls h)

/-! ### Parameters -/

/-- Types and names of parameters. -/
def paramRefs (ps : List Param) : List Token.Ref := ps.flatMap fun p => [p.type, p.name]

theorem leaves_readParams (ls : List Lexeme) :
    (readParams ls).Ensures fun ps => Leaves ls (paramRefs ps) [] := by
  induction ls using readParams.induct with
  | case1 => exact ensures_pure fun r hr => absurd hr wordIn_nil
  | case2 type ls hw ih =>
    unfold readParams
    refine ensures_ite (fun _ => ensures_then fun _ => ?_) fun h => absurd hw h
    cases ls with
    | nil => exact ensures_fault
    | cons name ls =>
      refine ensures_ite (fun hn => ensures_then fun _ => ?_) fun _ => ensures_fault
      cases ls with
      | nil => exact ensures_pure (.cons_word (.cons_word fun r hr => absurd hr wordIn_nil))
      | cons next rest =>
        refine ensures_ite (fun hcomma => ensures_bind ih.1.1 fun ps hps => ?_) fun _ =>
          ensures_bind ih.1.2 fun ps hps => ?_
        · exact ensures_pure (.cons_word (.cons_word (.cons_separator hcomma hps)))
        · exact ensures_pure (.cons_word (.cons_word hps))
  | case3 type ls hw ih =>
    unfold readParams
    exact ensures_ite (fun h => absurd h hw) fun _ => ensures_fault

/-- A parameter list is made of words, commas and a closing parenthesis, and its words are those of the
parameters. -/
theorem ensures_readParamList (paren : Token.Ref) (ls : List Lexeme) :
    (readParamList paren ls).Ensures fun list => ∃ inside, ls = inside ++ list.rest ∧
      (∀ r, r ∈ paramRefs list.params ↔ WordIn inside r) ∧ ∀ l ∈ inside, l.isSeparator '}' = false := by
  let inParams := fun (l : Lexeme) => l.isWord || l.isSeparator ','
  have hinside : ∀ l ∈ ls.takeWhile inParams, l.isSeparator '}' = false := by
    intro l hl
    have hl : inParams l = true := List.mem_takeWhile_imp hl
    rcases Bool.or_eq_true_iff.1 hl with hw | hcomma
    · exact Expr.isSeparator_of_isWord hw _
    · exact Expr.isSeparator_unique hcomma (by decide)
  have hparams : (readParams (ls.takeWhile inParams)).Ensures fun ps =>
      ∀ r, r ∈ paramRefs ps ↔ WordIn (ls.takeWhile inParams) r := by
    intro hclean r
    refine ⟨fun hr => ?_, (leaves_readParams _ hclean).mem⟩
    obtain ⟨p, hp, hr⟩ := List.mem_flatMap.1 hr
    obtain ⟨htype, hname⟩ := yields_readParams (ls.takeWhile inParams) p hp
    rcases List.mem_pair.1 hr with rfl | rfl
    · exact htype
    · exact hname
  have hsplit : ls.takeWhile inParams ++ ls.dropWhile inParams = ls := List.takeWhile_append_dropWhile
  unfold readParamList
  refine ensures_bind hparams fun ps hps => ?_
  split
  · next hnil =>
    rw [hnil] at hsplit
    exact ensures_pure ⟨_, hsplit.symm, hps, hinside⟩
  · next close rest hdrop =>
    rw [hdrop] at hsplit
    refine ensures_ite (fun hclose => ensures_pure ?_) fun _ => ensures_pure ⟨_, hsplit.symm, hps, hinside⟩
    refine ⟨ls.takeWhile inParams ++ [close], by simp [hsplit], fun r => ?_, ?_⟩
    · rw [hps, wordIn_append, wordIn_cons, Expr.isWord_of_isSeparator hclose]
      simp
    · refine List.forall_mem_append.2 ⟨hinside, List.forall_mem_singleton.2 ?_⟩
      exact Expr.isSeparator_unique hclose (by decide)

theorem leaves_readRuleParams (name : Token.Ref) (ls : List Lexeme) :
    (readRuleParams name ls).Ensures fun list => Leaves ls (paramRefs list.params) list.rest := by
  cases ls with
  | nil => exact ensures_fault
  | cons paren ls =>
    unfold readRuleParams
    refine ensures_ite (fun hp => ?_) fun _ => ensures_fault
    refine ensures_bind (ensures_readParamList paren.ref ls) fun list hlist => ?_
    obtain ⟨inside, hsplit, hparams, -⟩ := hlist
    refine ensures_ite (fun _ => ensures_fault) fun _ => ensures_pure (.cons_separator hp fun r hr => ?_)
    rw [hsplit, wordIn_append] at hr
    exact hr.imp_left (hparams r).2

/-! ### Rules -/

theorem leaves_readBraced (brace : Lexeme) (ls : List Lexeme) :
    (readBraced brace ls).Ensures fun braced =>
      ∀ r, WordIn (brace :: ls) r → WordIn braced.inside r ∨ WordIn braced.rest r := by
  unfold readBraced
  dsimp only
  refine ensures_ite (fun _ => ensures_fault) fun hopen => ?_
  have hopen : brace.isSeparator '{' = true := by simpa using hopen
  rw [if_pos hopen]
  split
  · next inside close rest hcut =>
    obtain ⟨rfl, hclose, -⟩ := cutFirst_eq_some hcut
    refine ensures_pure fun r hr => ?_
    simpa [Expr.isWord_of_isSeparator hopen, Expr.isWord_of_isSeparator hclose] using hr
  · exact ensures_fault

theorem leaves_readRuleBraces (list : ParamList) :
    (readRuleBraces list).Ensures fun braced =>
      ∀ r, WordIn list.rest r → WordIn braced.inside r ∨ WordIn braced.rest r := by
  unfold readRuleBraces
  split
  · exact ensures_fault
  · next brace ls hrest =>
    rw [hrest]
    exact leaves_readBraced brace ls

theorem ensures_readGroupLexeme (params : List Param) (groups : List (List Token.Ref)) (l : Lexeme) :
    (readGroupLexeme params groups l).Ensures fun groups' =>
      ∀ r, r ∈ groups.flatten ∨ (l.isWord = true ∧ l.ref = r) → r ∈ groups'.flatten := by
  unfold readGroupLexeme
  refine ensures_ite (fun hp => ensures_pure fun r hr => ?_) fun _ => ensures_ite (fun hw => ?_) fun hw =>
    ensures_pure fun r hr => hr.resolve_right fun h => hw h.1
  · have hw := Expr.isWord_of_isSeparator hp
    simpa [hw] using hr
  · refine ensures_ite (fun _ => ensures_then fun _ => ?_) fun _ => ensures_fault
    match groups with
    | [] => exact ensures_pure fun r hr => by simpa [hw, eq_comm] using hr
    | group :: groups =>
      refine ensures_ite (fun _ => ensures_fault) fun _ => ensures_pure fun r hr => ?_
      rcases hr with hr | ⟨-, rfl⟩
      · exact List.mem_cons_of_mem _ hr
      · exact List.mem_cons_self ..

theorem leaves_readGroups (params : List Param) (ls : List Lexeme) :
    (readGroups params ls).Ensures fun groups => Leaves ls groups.flatten [] := by
  unfold readGroups
  refine ensures_bind (ensures_foldlM (ensures_readGroupLexeme params) ls []) fun groups hgroups => ?_
  refine ensures_bind (ensures_forM (P := fun group => group.length ≠ 1) (fun group => ?_) _) fun _ hlengths =>
    ensures_pure fun r hr => .inl ?_
  · split
    · exact ensures_lone_fault
    · next hne =>
      refine ensures_pure fun hlength => ?_
      obtain ⟨single, rfl⟩ := List.length_eq_one_iff.1 hlength
      exact hne single rfl
  obtain ⟨group, hgroup, hr⟩ := List.mem_flatten.1 (hgroups r (.inr hr))
  have hmem : group.reverse ∈ (groups.map List.reverse).reverse :=
    List.mem_reverse.2 (List.mem_map_of_mem hgroup)
  have hlength := hlengths _ hmem
  have hpos := List.length_pos_of_mem hr
  rw [List.length_reverse] at hlength
  refine List.mem_flatten.2 ⟨group.reverse, List.mem_filter.2 ⟨hmem, ?_⟩, List.mem_reverse.2 hr⟩
  rw [List.length_reverse, decide_eq_true_eq]
  omega

/-- The words of the statements of a rule. -/
def Body.words (body : Body) : List Token.Ref :=
  Expr.headsAll body.targets ++ Expr.headsAll body.assumptions ++ body.distinct.flatten

theorem ensures_readStatement (params : List Param) (body : Body) (s : Section) :
    (readStatement params body s).Ensures fun body' =>
      ∀ r, r ∈ body.words ∨ WordIn s.body r → r ∈ body'.words := by
  unfold readStatement
  split
  · refine ensures_bind (Expr.leaves_readAll s.body) fun es hes => ensures_ite (fun _ => ensures_fault) fun _ => ?_
    refine ensures_pure fun r hr => ?_
    have hr := hr.imp_right hes.mem
    simp only [Body.words, Expr.headsAll_append, List.mem_append] at hr ⊢
    tauto
  · refine ensures_bind (Expr.leaves_readAll s.body) fun es hes => ensures_ite (fun _ => ensures_fault) fun _ => ?_
    refine ensures_pure fun r hr => ?_
    have hr := hr.imp_right hes.mem
    simp only [Body.words, Expr.headsAll_append, List.mem_append] at hr ⊢
    tauto
  · refine ensures_bind (leaves_readGroups params s.body) fun groups hgroups =>
      ensures_ite (fun _ => ensures_fault) fun _ => ?_
    refine ensures_pure fun r hr => ?_
    have hr := hr.imp_right hgroups.mem
    simp only [Body.words, List.flatten_append, List.mem_append] at hr ⊢
    tauto

theorem leaves_readBody (params : List Param) (ls : List Lexeme) :
    (readBody params ls).Ensures fun body => Leaves ls body.words [] := by
  unfold readBody
  refine ensures_bind (ensures_faultAll _ _) fun _ hnil => ?_
  intro hclean r hr
  have hwords := ensures_foldlM (ensures_readStatement params) _ _ hclean
  exact .inl (hwords r (.inr (Section.exists_wordIn hnil hr)))

theorem leaves_readRule (keyword : Token.Ref) (kind : Token.Kind) (ls : List Lexeme) :
    (readRule keyword kind ls).Ensures fun r? => ∃ rule rest, r? = some (rule, rest) ∧
      Leaves ls rule.words rest := by
  cases ls with
  | nil => exact ensures_fault
  | cons name ls =>
    unfold readRule
    refine ensures_ite (fun _ => ensures_then fun _ => ?_) fun _ => ensures_fault
    refine ensures_bind (leaves_readRuleParams name.ref ls) fun list hlist => ?_
    refine ensures_bind (leaves_readRuleBraces list) fun braced hbraced => ?_
    refine ensures_bind (leaves_readBody list.params braced.inside) fun body hbody => ?_
    refine ensures_ite (fun _ => ensures_fault) fun _ => ensures_pure ⟨_, _, rfl, ?_⟩
    have hrule := (hlist.trans (.of_inside hbraced hbody)).cons_word (l := name)
    simpa only [RuleBlock.words, Body.words, paramRefs, List.cons_append, List.append_assoc] using hrule

theorem ensures_readAxiom (keyword : Token.Ref) (ls : List Lexeme) :
    (readAxiom keyword ls).Ensures fun b? => ∃ b, b? = some b ∧ Leaves ls b.words [] := by
  unfold readAxiom
  refine ensures_bind (leaves_readRule keyword .axiomName ls) ?_
  rintro _ ⟨rule, rest, rfl, hrule⟩
  refine ensures_bind (ensures_faultAll _ rest) ?_
  rintro _ rfl
  exact ensures_pure ⟨_, rfl, hrule⟩

theorem leaves_readEquals (name : Token.Ref) (ls : List Lexeme) :
    (readEquals name ls).Ensures fun r => Leaves ls [] r.2 := by
  cases ls with
  | nil => exact ensures_fault
  | cons equals ls =>
    unfold readEquals
    refine ensures_ite (fun he => ensures_pure (.cons_separator he fun r hr => .inr hr)) fun _ => ensures_fault

theorem leaves_readProof (last : Option Token.Ref) (ls : List Lexeme) :
    (readProof last ls).Ensures fun r => Leaves ls (Expr.headsAll r.1) r.2.2 := by
  cases ls with
  | nil => exact ensures_pure fun r hr => absurd hr wordIn_nil
  | cons brace ls =>
    unfold readProof
    refine ensures_bind (leaves_readBraced brace ls) fun braced hbraced => ?_
    refine ensures_bind (Expr.leaves_readAll braced.inside) fun es hes => ensures_pure ?_
    exact .of_inside hbraced hes

theorem ensures_readThm (keyword : Token.Ref) (ls : List Lexeme) :
    (readThm keyword ls).Ensures fun b? => ∃ b, b? = some b ∧ Leaves ls b.words [] := by
  unfold readThm
  refine ensures_bind (leaves_readRule keyword .thmName ls) ?_
  rintro _ ⟨rule, rest, rfl, hrule⟩
  refine ensures_bind (leaves_readEquals rule.name rest) fun ⟨last, rest'⟩ hequals => ?_
  refine ensures_bind (leaves_readProof last rest') fun ⟨proof, last, after⟩ hproof => ?_
  refine ensures_bind (ensures_faultAll _ after) ?_
  rintro _ rfl
  exact ensures_pure ⟨_, rfl, hrule.trans (hequals.trans hproof)⟩

/-! ### Terms -/

theorem ensures_readTermParams (name : Token.Ref) (ls : List Lexeme) :
    (readTermParams name ls).Ensures fun r => ∃ inside, ls = inside ++ r.2.2 ∧
      (∀ q, q ∈ paramRefs r.1 ↔ WordIn inside q) ∧ ∀ l ∈ inside, l.isSeparator '}' = false := by
  have hnone : ∀ q, q ∈ paramRefs [] ↔ WordIn [] q := fun q => iff_of_false List.not_mem_nil wordIn_nil
  cases ls with
  | nil => exact ensures_pure ⟨[], rfl, hnone, List.forall_mem_nil _⟩
  | cons paren ls =>
    unfold readTermParams
    refine ensures_ite (fun hp => ?_) fun _ => ensures_pure ⟨[], rfl, hnone, List.forall_mem_nil _⟩
    refine ensures_bind (ensures_readParamList paren.ref ls) fun list hlist => ?_
    obtain ⟨inside, hsplit, hparams, hinside⟩ := hlist
    refine ensures_ite (fun _ => ensures_fault) fun _ => ensures_pure ?_
    refine ⟨paren :: inside, congrArg _ hsplit, fun q => ?_, List.forall_mem_cons.2 ⟨?_, hinside⟩⟩
    · rw [hparams, wordIn_cons, Expr.isWord_of_isSeparator hp]
      simp
    · exact Expr.isSeparator_unique hp (by decide)

theorem ensures_readForm (last : Token.Ref) (ls : List Lexeme) :
    (readForm last ls).Ensures fun r => ls = [] ∧ r.1 = [] ∨ ∃ brace form close after,
      ls = brace :: (form ++ close :: after) ∧ r.1 = form.map (·.ref) ∧ brace.isSeparator '{' = true ∧
        close.isSeparator '}' = true ∧ ∀ l ∈ after, l.isSeparator '}' = false := by
  cases ls with
  | nil => exact ensures_pure (.inl ⟨rfl, rfl⟩)
  | cons brace ls =>
    unfold readForm
    refine ensures_ite (fun hbrace => ?_) fun _ => ensures_fault
    split
    · next form close after hcut =>
      obtain ⟨rfl, hclose, hafter⟩ := cutLast_eq_some hcut
      exact ensures_pure (.inr ⟨brace, form, close, after, rfl, rfl, hbrace, hclose, hafter⟩)
    · exact ensures_fault

end Block

/-- A lexeme is behind the last closing brace of a term. -/
def Section.Ignores (s : Section) (l : Lexeme) : Prop :=
  s.keyword = .termDecl ∧ ∃ before close after, s.body = before ++ close :: after ∧
    close.isSeparator '}' = true ∧ (∀ m ∈ after, m.isSeparator '}' = false) ∧ l ∈ after

namespace Block

/-- A block has the words of the lexemes `front` of its section. Words in `back` are ignored. -/
structure Covers (s : Section) (b : Block) (front back : List Lexeme) : Prop where
  split : s.body = front ++ back
  words : ∀ r, WordIn front r → r ∈ b.words
  lexemes : ∀ r ∈ b.words, ∃ l ∈ front, l.ref = r
  ignores : ∀ l, l.isWord = true → (l ∈ back ↔ s.Ignores l)

section

variable {keyword : Token.Ref} {span : Span} {type name : Lexeme} {params : List Param} {inside : List Lexeme}

theorem words_of_term (hparams : ∀ r, r ∈ paramRefs params ↔ WordIn inside r) {middle : List Lexeme}
    (hmiddle : ∀ r, ¬WordIn middle r) (form : List Lexeme) {r : Token.Ref}
    (hr : WordIn (type :: name :: (inside ++ (middle ++ form))) r) :
    r ∈ words (.term ⟨keyword, type.ref, name.ref, params,
      if (form.map (·.ref)).isEmpty then [name.ref] else form.map (·.ref), span⟩) := by
  simp only [words, List.cons_append, List.mem_cons, List.mem_append]
  rcases wordIn_cons.1 hr with ⟨-, rfl⟩ | hr
  · exact .inl rfl
  rcases wordIn_cons.1 hr with ⟨-, rfl⟩ | hr
  · exact .inr (.inl rfl)
  rcases wordIn_append.1 hr with hr | hr
  · exact .inr (.inr (.inl ((hparams r).2 hr)))
  rcases wordIn_append.1 hr with hr | ⟨l, hl, -, rfl⟩
  · exact absurd hr (hmiddle r)
  · have hmem : l.ref ∈ form.map (·.ref) := List.mem_map_of_mem hl
    rw [if_neg fun hempty => List.ne_nil_of_mem hmem (List.isEmpty_iff.1 hempty)]
    exact .inr (.inr (.inr hmem))

theorem lexemes_of_term (hparams : ∀ r, r ∈ paramRefs params ↔ WordIn inside r) (middle form : List Lexeme)
    {r : Token.Ref}
    (hr : r ∈ words (.term ⟨keyword, type.ref, name.ref, params,
      if (form.map (·.ref)).isEmpty then [name.ref] else form.map (·.ref), span⟩)) :
    ∃ l ∈ type :: name :: (inside ++ (middle ++ form)), l.ref = r := by
  simp only [words, List.cons_append, List.mem_cons, List.mem_append] at hr
  rcases hr with rfl | rfl | hr | hr
  · exact ⟨type, by simp, rfl⟩
  · exact ⟨name, by simp, rfl⟩
  · obtain ⟨l, hl, -, rfl⟩ := (hparams r).1 hr
    exact ⟨l, by simp [hl], rfl⟩
  · split at hr
    · exact ⟨name, by simp, (List.mem_singleton.1 hr).symm⟩
    · obtain ⟨l, hl, rfl⟩ := List.mem_map.1 hr
      exact ⟨l, by simp [hl], rfl⟩

/-- Without a form there is no closing brace, so nothing is behind it. -/
theorem covers_bare (ht : type.isWord = true) (hn : name.isWord = true)
    (hparams : ∀ r, r ∈ paramRefs params ↔ WordIn inside r)
    (hinside : ∀ l ∈ inside, l.isSeparator '}' = false) :
    Covers ⟨.termDecl, keyword, type :: name :: inside⟩
      (.term ⟨keyword, type.ref, name.ref, params, [name.ref], span⟩) (type :: name :: inside) [] where
  split := (List.append_nil _).symm
  words r hr := words_of_term hparams (fun _ => wordIn_nil) [] (by simpa using hr)
  lexemes r hr := by simpa using lexemes_of_term hparams [] [] hr
  ignores l _ := by
    refine iff_of_false List.not_mem_nil ?_
    rintro ⟨-, before, close, after, hsplit, hclose, -, -⟩
    have hsplit : type :: name :: inside = before ++ close :: after := hsplit
    have hnone : ∀ m ∈ type :: name :: inside, m.isSeparator '}' = false :=
      List.forall_mem_cons.2 ⟨Expr.isSeparator_of_isWord ht _,
        List.forall_mem_cons.2 ⟨Expr.isSeparator_of_isWord hn _, hinside⟩⟩
    have hfalse := hnone close (by simp [hsplit])
    rw [hclose] at hfalse
    cases hfalse

theorem covers_formed {brace close : Lexeme} {form after : List Lexeme}
    (hparams : ∀ r, r ∈ paramRefs params ↔ WordIn inside r) (hbrace : brace.isSeparator '{' = true)
    (hclose : close.isSeparator '}' = true) (hafter : ∀ l ∈ after, l.isSeparator '}' = false) :
    Covers ⟨.termDecl, keyword, type :: name :: (inside ++ brace :: (form ++ close :: after))⟩
      (.term ⟨keyword, type.ref, name.ref, params,
        if (form.map (·.ref)).isEmpty then [name.ref] else form.map (·.ref), span⟩)
      (type :: name :: (inside ++ ([brace] ++ form))) (close :: after) where
  split := by simp
  words r hr := by
    refine words_of_term hparams (fun q hq => ?_) form hr
    simp [Expr.isWord_of_isSeparator hbrace] at hq
  lexemes r hr := lexemes_of_term hparams [brace] form hr
  ignores l hl := by
    have hne : l ≠ close := by
      rintro rfl
      rw [Expr.isWord_of_isSeparator hclose] at hl
      cases hl
    have hsplit : type :: name :: (inside ++ brace :: (form ++ close :: after)) =
        (type :: name :: (inside ++ ([brace] ++ form))) ++ close :: after := by simp
    refine ⟨fun hmem => ⟨rfl, _, close, after, hsplit, hclose, hafter, ?_⟩, ?_⟩
    · exact (List.mem_cons.1 hmem).resolve_left hne
    · -- there is only one last closing brace
      rintro ⟨-, before', close', after', hsplit', hclose', hafter', hmem⟩
      have hcut := cutLast_append (p := (·.isSeparator '}')) before' hclose' hafter'
      rw [← hsplit', hsplit, cutLast_append _ hclose hafter] at hcut
      cases hcut
      exact List.mem_cons_of_mem _ hmem

end

theorem covers_readTerm (keyword : Token.Ref) (ls : List Lexeme) :
    (readTerm keyword ls).Ensures fun b? => ∃ b front back, b? = some b ∧
      Covers ⟨.termDecl, keyword, ls⟩ b front back := by
  cases ls with
  | nil => exact ensures_fault
  | cons type ls =>
    unfold readTerm
    refine ensures_ite (fun ht => ensures_then fun _ => ?_) fun _ => ensures_fault
    cases ls with
    | nil => exact ensures_fault
    | cons name ls =>
      refine ensures_ite (fun hn => ?_) fun _ => ensures_fault
      refine ensures_bind (ensures_readTermParams name.ref ls) fun ⟨params, last, rest⟩ hparams => ?_
      obtain ⟨inside, rfl, hparams, hinside⟩ := hparams
      refine ensures_bind (ensures_readForm last rest) fun ⟨form, last⟩ hform => ?_
      have hcovers : ∀ span, ∃ front back, Covers ⟨.termDecl, keyword, type :: name :: (inside ++ rest)⟩
          (.term ⟨keyword, type.ref, name.ref, params, if form.isEmpty then [name.ref] else form, span⟩)
          front back := by
        intro span
        rcases hform with ⟨rfl, rfl⟩ | ⟨brace, form, close, after, rfl, rfl, hbrace, hclose, hafter⟩
        · rw [List.append_nil]
          exact ⟨_, _, covers_bare ht hn hparams hinside⟩
        · exact ⟨_, _, covers_formed hparams hbrace hclose hafter⟩
      obtain ⟨front, back, hcovers⟩ := hcovers (keyword.span.through last.span)
      refine ensures_ite (fun _ => ensures_then fun _ => ensures_then fun _ => ?_) fun _ => ensures_then fun _ => ?_
      · exact ensures_pure ⟨_, front, back, rfl, hcovers⟩
      · exact ensures_pure ⟨_, front, back, rfl, hcovers⟩

/-! ### Sections -/

theorem covers_of_leaves {s : Section} {b : Block} (hkeyword : s.keyword ≠ .termDecl) (hread : b.ReadFrom s.body)
    (hleaves : Leaves s.body b.words []) : Covers s b s.body [] where
  split := (List.append_nil _).symm
  words _ hr := hleaves.mem hr
  lexemes _ hr := exists_lexeme_of_mem_words hread hr
  ignores _ _ := iff_of_false List.not_mem_nil fun h => hkeyword h.1

theorem covers_ofSection {s : Section} (hs : s.keyword.startsBlock = true) :
    (ofSection s).Ensures fun b? => ∃ b front back, b? = some b ∧ Covers s b front back := by
  have hread := standsIn_ofSection s
  obtain ⟨keyword, head, body⟩ := s
  -- a block that leaves nothing covers its section
  have hwhole : keyword ≠ .termDecl → ((ofSection ⟨keyword, head, body⟩).Ensures fun b? =>
      ∃ b, b? = some b ∧ Leaves body b.words []) → (ofSection ⟨keyword, head, body⟩).Ensures fun b? =>
        ∃ b front back, b? = some b ∧ Covers ⟨keyword, head, body⟩ b front back := by
    intro hkeyword hleaves hclean
    obtain ⟨b, hb, hleaves⟩ := hleaves hclean
    exact ⟨b, body, [], hb, covers_of_leaves hkeyword (hread b hb).readFrom hleaves⟩
  cases keyword with
  | typeDecl =>
    refine hwhole nofun ?_
    show (some <$> readTypes head body).Ensures _
    rw [map_eq_pure_bind]
    refine ensures_bind (Q := fun b => Leaves body b.words []) ?_ fun b hb => ensures_pure ⟨b, rfl, hb⟩
    refine ensures_then fun _ => ensures_ite (fun _ => ensures_fault) fun _ => ensures_pure ?_
    rintro r ⟨l, hl, hw, rfl⟩
    exact .inl (List.mem_map_of_mem (List.mem_filter.2 ⟨hl, hw⟩))
  | termDecl => exact covers_readTerm head body
  | axiomDecl => exact hwhole nofun (ensures_readAxiom head body)
  | thmDecl => exact hwhole nofun (ensures_readThm head body)
  | target | assume | distinct => cases hs

end Block

/-! ### Words of a text -/

namespace Lexeme

variable {tokens : List Token}

theorem nodup_ofTokens (tokens : List Token) : (ofTokens tokens).Nodup :=
  (pairwise_index tokens).imp fun hlt heq => absurd (heq ▸ hlt) (Nat.lt_irrefl _)

theorem eq_of_ref_eq {l m : Lexeme} (hl : l ∈ ofTokens tokens) (hm : m ∈ ofTokens tokens) (h : l.ref = m.ref) :
    l = m := by
  obtain ⟨t, ht, hlt, -, -⟩ := eq_of_mem_ofTokens hl
  obtain ⟨u, hu, hmu, -, -⟩ := eq_of_mem_ofTokens hm
  rw [h, hu] at ht
  cases ht
  rw [hlt, hmu, h]

theorem mem_ofTokens_of_word {i : Nat} {t : Token} (h : tokens[i]? = some t) (hw : t.kind = .word) :
    ⟨.word, t.ref i⟩ ∈ ofTokens tokens := by
  refine List.mem_filterMap.2 ⟨(t, i), List.mem_zipIdx_iff_getElem?.2 h, ?_⟩
  simp only [hw]

end Lexeme

/-- A word stands in at most one section. -/
theorem Section.eq_of_mem_body {tokens : List Token} {heads : Keyword → Bool} {s s' : Section} {l : Lexeme}
    (hs : s ∈ (split heads (Lexeme.ofTokens tokens)).2) (hs' : s' ∈ (split heads (Lexeme.ofTokens tokens)).2)
    (hl : l ∈ s.body) (hl' : l ∈ s'.body) : s = s' := by
  have hnodup := Lexeme.nodup_ofTokens tokens
  rw [← split_append heads (Lexeme.ofTokens tokens)] at hnodup
  obtain ⟨-, hdisjoint⟩ := List.nodup_flatMap.1 (List.nodup_append.1 hnodup).2.1
  by_contra hne
  have : Std.Symm (Function.onFun List.Disjoint lexemes) := ⟨fun _ _ h _ hl hl' => h hl' hl⟩
  exact hdisjoint.forall hs hs' hne (List.mem_cons_of_mem _ hl) (List.mem_cons_of_mem _ hl')

namespace Block

open Document (sections)

/-- If a text is read without faults, the words that no block has are those behind the last closing brace
of a term. -/
theorem mem_words_iff {text : String} (hclean : (readAll (Token.scan text)).notes.diagnostics = []) {i : Nat}
    {t : Token} (ht : (Token.scan text)[i]? = some t) (hword : t.kind = .word) :
    (∃ b ∈ (readAll (Token.scan text)).value, t.ref i ∈ b.words) ↔
      ¬∃ s ∈ sections text, s.Ignores ⟨.word, t.ref i⟩ := by
  have hl := Lexeme.mem_ofTokens_of_word ht hword
  generalize hlexeme : (⟨.word, t.ref i⟩ : Lexeme) = l at hl ⊢
  have hw : l.isWord = true := by rw [← hlexeme]; rfl
  have href : t.ref i = l.ref := by rw [← hlexeme]
  rw [href]
  obtain ⟨hbefore, hsections⟩ := List.append_eq_nil_iff.1 hclean
  have hsections : (ofSections (sections text)).notes.diagnostics = [] := hsections
  have hcovers : ∀ s ∈ sections text, ∃ b front back, (ofSection s).value = some b ∧ Covers s b front back := by
    intro s hs
    refine covers_ofSection (Section.startsBlock_of_mem_split hs) (List.eq_nil_iff_forall_not_mem.2 fun d hd => ?_)
    exact absurd (mem_diagnostics_ofSections hs hd) (by rw [hsections]; exact List.not_mem_nil)
  constructor
  · rintro ⟨b, hb, hr⟩ ⟨s, hs, hignores⟩
    obtain ⟨s', hs', hsome⟩ := exists_ofSection hb
    obtain ⟨b', front, back, hsome', h⟩ := hcovers s' hs'
    cases hsome.symm.trans hsome'
    have hback : l ∈ s.body := by
      obtain ⟨-, before, close, after, hsplit, -, -, hmem⟩ := hignores
      simp [hsplit, hmem]
    have hfront : l ∈ front := by
      obtain ⟨m, hm, hmr⟩ := h.lexemes _ hr
      have hbody : m ∈ s'.body := by simp [h.split, hm]
      rwa [← Lexeme.eq_of_ref_eq (Section.body_subset hs' hbody) hl hmr]
    cases Section.eq_of_mem_body hs' hs (by simp [h.split, hfront]) hback
    -- no lexeme is both in front of the brace and behind it
    have hnodup : (front ++ back).Nodup := by
      rw [← h.split]
      exact (Lexeme.nodup_ofTokens (Token.scan text)).sublist
        ((List.sublist_cons_self ..).trans (Section.lexemes_sublist hs))
    exact (List.nodup_append.1 hnodup).2.2 l hfront l ((h.ignores l hw).2 hignores) rfl
  · intro hnone
    obtain ⟨s, hs, m, hm, hmw, hmr⟩ := Section.exists_wordIn (ensures_faultAll _ _ hbefore) ⟨l, hl, hw, rfl⟩
    cases Lexeme.eq_of_ref_eq (Section.body_subset hs hm) hl hmr
    obtain ⟨b, front, back, hsome, h⟩ := hcovers s hs
    refine ⟨b, mem_ofSections hs hsome, h.words _ ⟨l, ?_, hw, rfl⟩⟩
    rw [h.split] at hm
    refine (List.mem_append.1 hm).resolve_right fun hback => hnone ⟨s, hs, ?_⟩
    exact (h.ignores l hw).1 hback

/-- The brace after `a` is in the form, and the last word is behind the form. -/
def untidy : String := "term W f(W a) {a } x\x7d y"

theorem mem_words_iff_untidy :
    (readAll (Token.scan untidy)).notes.diagnostics = [] ∧ ∃ t, (Token.scan untidy)[16]? = some t ∧
      t.kind = .word ∧ t.text = "x" ∧ ((∃ b ∈ (readAll (Token.scan untidy)).value, t.ref 16 ∈ b.words) ↔
        ¬∃ s ∈ sections untidy, s.Ignores ⟨.word, t.ref 16⟩) := by
  have hclean : (readAll (Token.scan untidy)).notes.diagnostics = [] := by decide +kernel
  obtain ⟨t, ht, hword, htext⟩ : ∃ t, (Token.scan untidy)[16]? = some t ∧ t.kind = .word ∧ t.text = "x" :=
    ⟨⟨.word, "x", ⟨⟨0, 19, 19⟩, ⟨0, 20, 20⟩⟩, none, none⟩, by decide +kernel, rfl, rfl⟩
  exact ⟨hclean, t, ht, hword, htext, mem_words_iff hclean ht hword⟩

/-- Not every word of a text that is read without faults is in a block. -/
theorem not_forall_mem_words :
    ¬∀ (text : String) (i : Nat) (t : Token), (readAll (Token.scan text)).notes.diagnostics = [] →
      (Token.scan text)[i]? = some t → t.kind = .word →
        ∃ b ∈ (readAll (Token.scan text)).value, t.ref i ∈ b.words := by
  intro h
  have hlost : ¬∃ b ∈ (readAll (Token.scan "term W a {x} y")).value,
      (⟨10, "y", ⟨⟨0, 13, 13⟩, ⟨0, 14, 14⟩⟩⟩ : Token.Ref) ∈ b.words := by decide +kernel
  refine hlost (h "term W a {x} y" 10 ⟨.word, "y", ⟨⟨0, 13, 13⟩, ⟨0, 14, 14⟩⟩, none, none⟩ ?_ ?_ rfl)
  · decide +kernel
  · decide +kernel

end Block

end Sequitur
