import Sequitur.Proofs.CrossFile
import Sequitur.Proofs.Faithfulness
import Sequitur.Proofs.Forms

/-!
# Printing and checking again

If nothing is found wrong with a text, its printed declarations can be checked again: nothing is found
wrong with them, and they print the same (`Document.check_renderAll`). A form is printed by writing its
fragments one after the other, without the blanks that were between them, so words can run together.
They must not make a comment or a keyword (`TermDecl.Legible`), or else the declaration is not read
again (`Document.check_renderAll_ne`). Where they only make another word, the template changes, but
that plays no role in checking.
-/

namespace Sequitur

open Placed (relocate)
open Noted

variable {scope : Scope}

/-! ### Blocks as they are printed -/

/-- Makes all templates the same. -/
def Template.forget (_ : Template) : Template := []

/-- Where the names are the same, so are the expressions, up to places. -/
theorem Expr.relocate_of_trees {α : Type} {f : α → Tree} {as : List α} {es : List Expr}
    (h : as.map f = es.map tree) : as.map (fun a => (f a).expr) = relocate .blank es := by
  rw [← exprs_map_tree, ← h, List.map_map]
  rfl

theorem RuleBlock.Makes.relocate_block {b : RuleBlock} {r : Rule} (h : b.Makes r) (k : Keyword) :
    relocate Relocation.blank { b with keyword := .named k.text } = r.block k := by
  have hgroups : r.groups.map (·.map Token.Ref.named) = relocate .blank b.distinct := by
    rw [h.groups, Token.Ref.map_named]
  unfold Rule.block
  rw [Expr.relocate_of_trees h.targets, Expr.relocate_of_trees h.assumptions, hgroups, h.name, h.params]
  rfl

namespace Block

/-- The block that is read off a printed declaration declares what the original one does, up to the
template. -/
theorem Makes.follows {b : Block} {d : Decl} (h : b.Makes d) : b.Follows .blank .forget d.block := by
  cases h with
  | @type b d name =>
    have hblock : relocate .blank (Block.types { b with keyword := .named Keyword.typeDecl.text }) =
        Decl.block (.type d) := by
      show Block.types ⟨_, relocate .blank b.names, _⟩ = _
      rw [name]
      rfl
    exact hblock ▸ follows_relocate _
  | @term b d type name params template =>
    have hblock : Block.term { relocate .blank { b with keyword := .named Keyword.termDecl.text } with
        content := d.content.map .named } = Decl.block (.term d) := by
      show Block.term ⟨_, _, _, relocate .blank b.params, _, _⟩ = _
      rw [← params, ← type, ← name]
      rfl
    intro scope scope' hscope
    refine hblock ▸ TermBlock.matches_declare hscope { b with keyword := .named Keyword.termDecl.text }
      (fun hid => ?_) rfl
    exact absurd (congrFun hid [.arg 0]) (by simp [Template.forget])
  | @axm b r rule =>
    have hblock : relocate .blank (Block.axm { b with keyword := .named Keyword.axiomDecl.text }) =
        Decl.block (.axm r) := congrArg Block.axm (rule.relocate_block .axiomDecl)
    exact hblock ▸ follows_relocate _
  | @thm b t rule proof =>
    have hblock : relocate .blank (Block.thm { b with keyword := .named Keyword.thmDecl.text }) =
        Decl.block (.thm t) := by
      show Block.thm ⟨relocate .blank { b.toRuleBlock with keyword := .named Keyword.thmDecl.text },
        relocate .blank b.proof⟩ = _
      rw [rule.relocate_block, ← Expr.relocate_of_trees proof]
      rfl
    exact hblock ▸ follows_relocate _

end Block

/-! ### Names of declarations -/

theorem Block.exists_makes_of_mem {bs : List Block} {ds : List Decl} (h : List.Forall₂ Makes bs ds) {d : Decl}
    (hd : d ∈ ds) : ∃ b ∈ bs, b.Makes d := by
  induction h with
  | nil => exact absurd hd List.not_mem_nil
  | @cons b e bs ds hb _ ih =>
    rcases List.mem_cons.1 hd with rfl | hd
    · exact ⟨b, List.mem_cons_self .., hb⟩
    · obtain ⟨c, hc, hmakes⟩ := ih hd
      exact ⟨c, List.mem_cons_of_mem _ hc, hmakes⟩

/-- Every rule has a target, and the form of a term is made of lexemes. -/
def Block.Stated (ls : List Lexeme) : Block → Prop
  | .types _ => True
  | .term b => b.content ≠ [] ∧ ∀ r ∈ b.content, ∃ l ∈ ls, r = l.ref
  | .axm b => b.targets ≠ []
  | .thm b => b.targets ≠ []

namespace Block

variable {ls : List Lexeme} {b : Block} {d : Decl}

theorem Makes.wordIn (h : b.Makes d) (hb : b.ReadFrom ls) :
    WordIn ls d.name ∧ ∀ p ∈ d.params, WordIn ls p.name := by
  cases h with
  | @type b d name => exact ⟨hb d.name (by simp [name]), List.forall_mem_nil _⟩
  | @term b d type name params template =>
    refine ⟨?_, fun p hp => (TermBlock.ReadFrom.params hb p ?_).2⟩
    · show WordIn ls d.name
      rw [name]
      exact TermBlock.ReadFrom.name hb
    · rw [← params]
      exact hp
  | @axm b r rule =>
    refine ⟨?_, fun p hp => (RuleBlock.ReadFrom.params hb p ?_).2⟩
    · show WordIn ls r.name
      rw [rule.name]
      exact RuleBlock.ReadFrom.name hb
    · rw [← rule.params]
      exact hp
  | @thm b t rule proof =>
    refine ⟨?_, fun p hp => (hb.1.params p ?_).2⟩
    · show WordIn ls t.rule.name
      rw [rule.name]
      exact hb.1.name
    · rw [← rule.params]
      exact hp

theorem Makes.targets_ne_nil (h : b.Makes d) (hb : b.Stated ls) {r : Rule} (hr : d.rule? = some r) :
    r.targets ≠ [] := by
  have hrule : ∀ {b : RuleBlock} {r : Rule}, b.Makes r → b.targets ≠ [] → r.targets ≠ [] := by
    intro b r hmakes hne hnil
    have htargets := hmakes.targets
    rw [hnil, List.map_nil] at htargets
    exact hne (List.map_eq_nil_iff.1 htargets.symm)
  cases h with
  | type | term => cases hr
  | axm rule => cases hr; exact hrule rule hb
  | thm rule => cases hr; exact hrule rule hb

theorem ensures_stated_readRule (keyword : Token.Ref) (kind : Token.Kind) (ls : List Lexeme) :
    (readRule keyword kind ls).Ensures fun r? => ∀ r ∈ r?, r.1.targets ≠ [] := by
  cases ls with
  | nil => exact ensures_fault
  | cons name ls =>
    unfold readRule
    refine ensures_ite (fun _ => ensures_then fun _ => ?_) fun _ => ensures_fault
    refine ensures_then fun list => ensures_then fun braced => ensures_then fun body => ?_
    refine ensures_ite (fun _ => ensures_fault) fun hne => ensures_pure ?_
    rintro r ⟨⟩
    exact fun hnil => hne (List.isEmpty_iff.2 hnil)

theorem ensures_stated_ofSection (s : Section) :
    (ofSection s).Ensures fun b? => ∀ b ∈ b?, b.Stated s.body := by
  unfold ofSection
  split
  · rw [map_eq_pure_bind]
    refine Yields.ensures (yields_bind (Q := Stated s.body) ?_ fun b hb => yields_pure ?_)
    · refine yields_then fun _ => yields_ite (fun _ => yields_then fun _ => ?_) fun _ => ?_
      · exact yields_pure trivial
      · exact yields_pure trivial
    · rintro _ ⟨⟩
      exact hb
  · refine Yields.ensures ((standsIn_readTerm s.head s.body).mono fun b? hb b hm => ?_)
    obtain ⟨hkeyword, -, hread⟩ := hb b hm
    cases b with
    | term b => exact ⟨hread.content_ne_nil, hread.content⟩
    | types | axm | thm => cases hkeyword
  · refine ensures_bind (ensures_stated_readRule _ _ _) fun r? hr => ?_
    cases r? with
    | none => exact ensures_pure fun b hb => absurd hb (by simp)
    | some r =>
      refine ensures_then fun _ => ensures_pure ?_
      rintro _ ⟨⟩
      exact hr r rfl
  · refine ensures_bind (ensures_stated_readRule _ _ _) fun r? hr => ?_
    cases r? with
    | none => exact ensures_pure fun b hb => absurd hb (by simp)
    | some r =>
      refine ensures_then fun _ => ensures_then fun _ => ensures_then fun _ => ensures_pure ?_
      rintro _ ⟨⟩
      exact hr r rfl
  · exact ensures_pure fun b hb => absurd hb (by simp)

theorem Stated.mono {ms : List Lexeme} (h : b.Stated ls) (hs : ls ⊆ ms) : b.Stated ms := by
  cases b with
  | term b =>
    refine ⟨h.1, fun r hr => ?_⟩
    obtain ⟨l, hl, he⟩ := h.2 r hr
    exact ⟨l, hs hl, he⟩
  | types | axm | thm => exact h

theorem ensures_stated_ofSections {ss : List Section} (h : ∀ s ∈ ss, s.body ⊆ ls) :
    (ofSections ss).Ensures fun bs => ∀ b ∈ bs, b.Stated ls := by
  induction ss with
  | nil => exact ensures_pure (List.forall_mem_nil _)
  | cons s ss ih =>
    obtain ⟨hs, hss⟩ := List.forall_mem_cons.1 h
    unfold ofSections
    refine ensures_bind (ensures_stated_ofSection s) fun b? hb => ensures_bind (ih hss) fun bs hbs => ?_
    refine ensures_pure (List.forall_mem_append.2 ⟨fun b hm => ?_, hbs⟩)
    exact (hb b (Option.mem_toList.1 hm)).mono hs

theorem ensures_stated_readAll (tokens : List Token) :
    (readAll tokens).Ensures fun bs => ∀ b ∈ bs, b.Stated (Lexeme.ofTokens tokens) :=
  ensures_then fun _ => ensures_stated_ofSections fun _ hs => Section.body_subset hs

theorem stated_of_mem_singles {b c : Block} (hb : b.Stated ls) (h : c ∈ b.singles) : c.Stated ls := by
  cases b with
  | types b =>
    obtain ⟨n, -, rfl⟩ := List.mem_map.1 h
    trivial
  | term | axm | thm =>
    rw [List.mem_singleton.1 h]
    exact hb

theorem readFrom_of_mem_singles {b c : Block} (hb : b.ReadFrom ls) (h : c ∈ b.singles) : c.ReadFrom ls := by
  cases b with
  | types b =>
    obtain ⟨n, hn, rfl⟩ := List.mem_map.1 h
    exact List.forall_mem_singleton.2 (hb n hn)
  | term | axm | thm =>
    rw [List.mem_singleton.1 h]
    exact hb

end Block

theorem Term.Complete.forall_mem_names {P : String → Prop} {decls : List Decl} {params : List Param}
    {t : Term} (h : t.Complete decls params) (hdecls : ∀ d ∈ decls, P d.name.text)
    (hparams : ∀ p ∈ params, P p.name.text) :
    ∀ n ∈ t.tree.names, P n := by
  induction t using Term.ind with
  | var head span param =>
    rw [tree_var, Tree.names, Tree.namesAll, List.forall_mem_singleton]
    exact hparams param h.wellTyped.1
  | hole head span param => exact absurd h.noHole (by simp)
  | app head span decl args ih =>
    obtain ⟨⟨hdecl, -⟩, hfits, hholes⟩ := complete_app.1 h
    rw [tree_app, Tree.names, Tree.namesAll_eq_flatMap, List.forall_mem_cons]
    refine ⟨hdecls _ hdecl, fun n hn => ?_⟩
    obtain ⟨u, hu, hn⟩ := List.mem_flatMap.1 hn
    obtain ⟨a, ha, rfl⟩ := List.mem_map.1 hu
    exact ih a ha ⟨hfits.wellTyped_of_mem ha, hholes a ha⟩ n hn

section

variable {before : List Decl} (hbefore : ∀ d ∈ before, IsName d.name.text)
include hbefore

theorem ParamsOk.named {params : List Param} (h : ParamsOk before params)
    (hnames : ∀ p ∈ params, IsName p.name.text) : ∀ p ∈ params, p.Named := by
  intro p hp
  obtain ⟨d, hd, he⟩ := h.types p hp
  exact ⟨he ▸ hbefore _ hd, hnames p hp⟩

theorem Rule.WellFormed.printable {r : Rule} (h : r.WellFormed before) (hname : IsName r.name.text)
    (hparams : ∀ p ∈ r.params, IsName p.name.text) (htargets : r.targets ≠ []) : r.Printable where
  name := hname
  params := h.params.named hbefore hparams
  targets_ne_nil := htargets
  targets t ht := (h.targets t ht).forall_mem_names hbefore hparams
  assumptions t ht := (h.assumptions t ht).forall_mem_names hbefore hparams
  groups := h.groups

theorem Step.WellFormed.isName_of_mem_names {thm : Rule} {s : Step} (h : s.WellFormed before thm)
    (hholes : ∀ a ∈ s.args, a.hasHole = false) (hparams : ∀ p ∈ thm.params, IsName p.name.text) :
    ∀ n ∈ s.tree.names, IsName n := by
  obtain ⟨d, hd, hhead, -⟩ := h.rule
  rw [Step.tree, Tree.names, Tree.namesAll_eq_flatMap, List.forall_mem_cons]
  refine ⟨hhead ▸ hbefore d hd, fun n hn => ?_⟩
  obtain ⟨u, hu, hn⟩ := List.mem_flatMap.1 hn
  obtain ⟨a, ha, rfl⟩ := List.mem_map.1 hu
  exact Term.Complete.forall_mem_names ⟨h.args.wellTyped_of_mem ha, hholes a ha⟩ hbefore hparams n hn

/-- What is declared without faults can be printed, if all names are names and forms are legible. -/
theorem Decl.WellFormed.printable {d : Decl} (h : d.WellFormed before) (hs : d.Sound before)
    (hname : IsName d.name.text) (hparams : ∀ p ∈ d.params, IsName p.name.text)
    (htargets : ∀ r, d.rule? = some r → r.targets ≠ []) (hforms : ∀ t, d = .term t → t.Legible) :
    d.Printable := by
  cases d with
  | type d => exact hname
  | term d =>
    obtain ⟨e, he, htype⟩ := TermDecl.WellFormed.type h
    exact ⟨htype ▸ hbefore _ he, hname, (TermDecl.WellFormed.params h).named hbefore hparams, hforms d rfl⟩
  | axm r => exact Rule.WellFormed.printable hbefore h hname hparams (htargets r rfl)
  | thm t =>
    refine ⟨h.1.printable hbefore hname hparams (htargets _ rfl), fun s hm => ?_⟩
    exact (h.2 s hm).isName_of_mem_names hbefore (Thm.Sound.noHole hs s hm).2 hparams

end

/-! ### Declarations that were read again -/

def Decl.template? (d : Decl) : Option Template := d.term?.map (·.template)

/-- The template of a term declaration after it was printed and read again. -/
def Decl.reread? (d : Decl) : Option Template := d.term?.map (·.reread)

namespace Block

variable {b : Block} {a d : Decl}

theorem isSingle_of_relocate (h : relocate .blank b = d.block) : b.IsSingle := by
  cases b with
  | types b =>
    cases d with
    | type d =>
      have hnames : relocate .blank b.names = [.named d.name.text] :=
        congrArg TypeBlock.names (Block.types.inj h)
      have hlength : b.names.length = 1 := by rw [← length_relocate (φ := .blank), hnames]; rfl
      exact List.length_eq_one_iff.1 hlength
    | term | axm | thm => cases h
  | term | axm | thm => trivial

theorem Makes.template?_eq (h : b.Makes a) (hb : relocate .blank b = d.block) : a.template? = d.reread? := by
  cases h with
  | type =>
    cases d with
    | type => rfl
    | term | axm | thm => cases hb
  | @term b a _ _ _ template =>
    cases d with
    | term d =>
      have hparams : Alike id b.params d.params := congrArg TermBlock.params (Block.term.inj hb)
      have hcontent : relocate .blank b.content = d.content.map .named :=
        congrArg TermBlock.content (Block.term.inj hb)
      have hnames : b.params.map (·.name.text) = d.params.map (·.name.text) :=
        hparams.apply_eq fun _ => map_relocate fun _ _ => rfl
      have htexts : b.content.map (·.text) = d.content := by
        rw [← map_relocate (φ := .blank) fun _ _ => rfl, hcontent, List.map_map]
        exact List.map_id _
      show some a.template = some d.reread
      rw [template, hnames, htexts]
      rfl
    | type | axm | thm => cases hb
  | axm =>
    cases d with
    | axm => rfl
    | type | term | thm => cases hb
  | thm =>
    cases d with
    | thm => rfl
    | type | term | axm => cases hb

theorem map_template?_eq {bs : List Block} {as ds : List Decl} (h : List.Forall₂ Makes bs as)
    (hbs : relocate .blank bs = ds.map Decl.block) : as.map Decl.template? = ds.map Decl.reread? := by
  induction h generalizing ds with
  | nil => rw [List.map_eq_nil_iff.1 hbs.symm]; rfl
  | @cons b a bs as hb _ ih =>
    cases ds with
    | nil => cases hbs
    | cons d ds =>
      obtain ⟨hd, hds⟩ := List.cons.inj hbs
      rw [List.map_cons, List.map_cons, hb.template?_eq hd, ih hds]

/-- A form is printed without blanks. -/
theorem Makes.isDense_body {ls : List Lexeme} {t : TermDecl} (h : b.Makes (.term t)) (hb : b.Stated ls)
    (hls : ∀ l ∈ ls, IsDense l.ref.text) : IsDense t.body := by
  cases h with
  | @term b t _ _ params template =>
    rw [TermDecl.body, template, params, Template.render_ofForm]
    refine isDense_join (fun hnil => hb.1 (List.map_eq_nil_iff.1 hnil)) fun s hs => ?_
    obtain ⟨r, hr, rfl⟩ := List.mem_map.1 hs
    obtain ⟨l, hl, rfl⟩ := hb.2 r hr
    exact hls l hl

end Block

theorem TermDecl.render_eq {t u : TermDecl} (h : Alike .forget t u) (ht : u.template = t.reread)
    (hbody : String.join t.content = t.body) : u.render = t.render := by
  have hname : t.name.text = u.name.text := h.apply_eq (f := fun d => d.name.text) fun _ => rfl
  have hparams := alike_params h
  have hnames : t.params.map (·.name.text) = u.params.map (·.name.text) :=
    hparams.apply_eq fun _ => map_relocate fun _ _ => rfl
  have hforms : u.template.render (u.params.map (·.name.text)) = t.body := by
    rw [ht, ← hnames, reread, Template.render_ofForm, hbody]
  unfold render
  rw [hforms, ← hname, ← type_text_eq h, ← hparams.apply_eq isEmpty_relocate,
    ← hparams.apply_eq Param.renderList_relocate]
  rfl

/-- If only the template may be another one, the source is the same. -/
theorem Decl.render_source_eq {a d : Decl} (h : d.unplaced .forget = a.unplaced .forget)
    (ht : a.template? = d.reread?) (hbody : ∀ t, d = .term t → String.join t.content = t.body) :
    a.render .source = d.render .source := by
  have hother : (∀ t, a ≠ .term t) → (∀ t, d ≠ .term t) → a.render .source = d.render .source := by
    have hunplaced : ∀ e : Decl, (∀ t, e ≠ .term t) → (e.unplaced .forget).render .source = e.render .source :=
      fun e he => render_unplaced (fun hform => absurd hform (by decide)) fun t ht => absurd ht (he t)
    intro ha hd
    rw [← hunplaced a ha, ← h, hunplaced d hd]
  cases d with
  | type d =>
    obtain ⟨a, rfl⟩ := unplaced_type h
    exact hother (by simp) (by simp)
  | term t =>
    obtain ⟨u, rfl, hu⟩ := unplaced_term h
    exact TermDecl.render_eq hu (Option.some.inj ht) (hbody t rfl)
  | axm r =>
    obtain ⟨a, rfl, -⟩ := unplaced_axm h
    exact hother (by simp) (by simp)
  | thm t =>
    obtain ⟨a, rfl, -⟩ := unplaced_thm h
    exact hother (by simp) (by simp)

theorem Decl.map_render_source_eq {as ds : List Decl}
    (h : ds.map (unplaced .forget) = as.map (unplaced .forget)) (ht : as.map template? = ds.map reread?)
    (hbody : ∀ t, .term t ∈ ds → String.join t.content = t.body) :
    as.map (render .source) = ds.map (render .source) := by
  induction ds generalizing as with
  | nil => rw [List.map_eq_nil_iff.1 h.symm]
  | cons d ds ih =>
    cases as with
    | nil => cases h
    | cons a as =>
      obtain ⟨hd, hds⟩ := List.cons.inj h
      obtain ⟨htd, htds⟩ := List.cons.inj ht
      have hrender := render_source_eq hd htd fun t he => hbody t (he ▸ List.mem_cons_self ..)
      rw [List.map_cons, List.map_cons, hrender, ih hds htds fun t hm => hbody t (List.mem_cons_of_mem _ hm)]

/-! ### Documents -/

namespace Document

theorem diagnostics_check_eq_nil {imports : List Table} {searchLimit : Nat} {text : String} :
    (check imports searchLimit text).diagnostics = [] ↔
      (checked { imports, searchLimit } (Token.scan text)).notes.diagnostics = [] := by
  rw [← List.length_eq_zero_iff, ← List.length_eq_zero_iff (l := (checked _ _).notes.diagnostics)]
  show (Diagnostic.sort _).length = 0 ↔ _
  rw [Diagnostic.sort, List.length_mergeSort]
  rfl

/-- The declarations of a text without faults, each made by a block of the text. -/
theorem exists_makes {searchLimit : Nat} {text : String}
    (hclean : (check [] searchLimit text).diagnostics = []) :
    ∃ bs, (Block.declareAll { searchLimit } bs).Clean (check [] searchLimit text).table ∧
      List.Forall₂ Block.Makes bs (check [] searchLimit text).decls ∧
      ∀ b ∈ bs, b.Stated (Lexeme.ofTokens (Token.scan text)) ∧
        b.ReadFrom (Lexeme.ofTokens (Token.scan text)) := by
  obtain ⟨hread, hdeclare⟩ := clean_bind_iff.1
    (⟨rfl, diagnostics_check_eq_nil.1 hclean⟩ : (checked { searchLimit } (Token.scan text)).Clean _)
  have hsingles := hdeclare
  rw [← Block.declareAll_flatMap_singles] at hsingles
  have hsingle : ∀ b ∈ (Block.readAll (Token.scan text)).value.flatMap Block.singles, b.IsSingle := by
    intro b hb
    obtain ⟨c, -, hb⟩ := List.mem_flatMap.1 hb
    exact Block.isSingle_of_mem_singles hb
  obtain ⟨ds, hds, hmakes⟩ := Block.ensures_makesAll hsingle hsingles.2
  have hds : (check [] searchLimit text).decls = ds := by
    rw [hsingles.1] at hds
    exact hds
  refine ⟨_, hsingles, hds ▸ hmakes, fun b hb => ?_⟩
  obtain ⟨c, hc, hb⟩ := List.mem_flatMap.1 hb
  exact ⟨Block.stated_of_mem_singles (Block.ensures_stated_readAll _ hread c hc) hb,
    Block.readFrom_of_mem_singles (Block.readFrom_of_mem_readAll hc) hb⟩

/-- All that is declared without faults can be printed. -/
theorem printable_check {searchLimit : Nat} {text : String}
    (hclean : (check [] searchLimit text).diagnostics = [])
    (hforms : ∀ t, .term t ∈ (check [] searchLimit text).decls → t.Legible) :
    ∀ d ∈ (check [] searchLimit text).decls, d.Printable := by
  obtain ⟨bs, -, hmakes, hbs⟩ := exists_makes hclean
  have hsound : SoundTable (check [] searchLimit text).decls :=
    @soundTable_check [] searchLimit text ⟨trivial, trivial⟩ hclean
  have hblock : ∀ d ∈ (check [] searchLimit text).decls, ∃ b ∈ bs, b.Makes d := fun d hd =>
    Block.exists_makes_of_mem hmakes hd
  have hword : ∀ r, WordIn (Lexeme.ofTokens (Token.scan text)) r → IsName r.text := by
    rintro r ⟨l, hl, hw, rfl⟩
    exact Lexeme.isName_of_mem_scan hl hw
  have hnames : ∀ d ∈ (check [] searchLimit text).decls,
      IsName d.name.text ∧ ∀ p ∈ d.params, IsName p.name.text := by
    intro d hd
    obtain ⟨b, hb, hmakes⟩ := hblock d hd
    obtain ⟨hname, hparams⟩ := hmakes.wordIn (hbs b hb).2
    exact ⟨hword _ hname, fun p hp => hword _ (hparams p hp)⟩
  intro d hd
  obtain ⟨b, hb, hmakes⟩ := hblock d hd
  obtain ⟨before, after, hsplit⟩ := List.append_of_mem hd
  have hwf := hsound.wellFormed
  have hthm := hsound.sound
  rw [hsplit] at hwf hthm
  refine Decl.WellFormed.printable (fun e he => (hnames e ?_).1) (inOrder_append.1 hwf).2.1
    (inOrder_append.1 hthm).2.1 (hnames d hd).1 (hnames d hd).2
    (fun r hr => hmakes.targets_ne_nil (hbs b hb).1 hr) fun t ht => hforms t (ht ▸ hd)
  rw [hsplit]
  exact List.mem_append_left _ he

/-- The words read off a printed form join up to it. -/
theorem join_content_check {searchLimit : Nat} {text : String}
    (hclean : (check [] searchLimit text).diagnostics = []) {t : TermDecl}
    (ht : .term t ∈ (check [] searchLimit text).decls) (hlegible : t.Legible) :
    String.join t.content = t.body := by
  obtain ⟨bs, -, hmakes, hbs⟩ := exists_makes hclean
  obtain ⟨b, hb, hmakes⟩ := Block.exists_makes_of_mem hmakes ht
  exact TermDecl.join_content hlegible.1
    (hmakes.isDense_body (hbs b hb).1 fun _ hl => Lexeme.isDense_of_mem_scan hl)

/-- Checking the printed declarations gives them again, up to places and templates. -/
theorem unplaced_check_renderAll {searchLimit : Nat} {text : String}
    (hclean : (check [] searchLimit text).diagnostics = [])
    (hforms : ∀ t, .term t ∈ (check [] searchLimit text).decls → t.Legible) :
    let decls := (check [] searchLimit text).decls
    let again := check [] searchLimit (Decl.renderAll decls)
    again.diagnostics = [] ∧ decls.map (Decl.unplaced .forget) = again.decls.map (Decl.unplaced .forget) ∧
      again.decls.map Decl.template? = decls.map Decl.reread? := by
  intro decls again
  obtain ⟨bs, ⟨hvalue, hnone⟩, hmakes, -⟩ := exists_makes hclean
  obtain ⟨hblocks, hread⟩ := Block.clean_readAll_renderAll (printable_check hclean hforms)
  rw [value_relocate] at hblocks
  rw [notes_relocate] at hread
  -- the blocks of the text and those of its printed declarations both follow `Decl.block`
  have hagree := Scope.Agree.refl .forget { searchLimit }
  have hfollows : List.Forall₂ (Block.Follows .blank .forget) bs (decls.map Decl.block) :=
    List.forall₂_map_right_iff.2 (hmakes.imp fun _ _ h => h.follows)
  have horiginal := Block.matches_declareAll hagree hfollows
  have hreread := Block.matches_declareAll hagree (Block.follows_relocateAll (φ := .blank)
    (Block.readAll (Token.scan (Decl.renderAll decls))).value)
  rw [hblocks] at hreread
  have hclean' : (Block.declareAll { searchLimit }
      (Block.readAll (Token.scan (Decl.renderAll decls))).value).notes.diagnostics = [] := by
    have hsame := hreread.diagnostics.symm.trans horiginal.diagnostics
    rw [hnone] at hsame
    exact List.map_eq_nil_iff.1 hsame
  refine ⟨?_, ?_, ?_⟩
  · refine diagnostics_check_eq_nil.2 ?_
    rw [checked, notes_bind, Notes.diagnostics_append, List.append_eq_nil_iff]
    exact ⟨List.map_eq_nil_iff.1 hread, hclean'⟩
  · obtain ⟨ds, es, hds, hes, he, -⟩ := horiginal.value
    obtain ⟨ds', es', hds', hes', he', -⟩ := hreread.value
    have hdecls : decls = ds := by
      rw [hvalue] at hds
      exact hds
    have hagain : again.decls = ds' := hds'
    have hes : es = es' := hes.symm.trans hes'
    rw [hdecls, hagain, he, he', hes]
  · have hsingle : ∀ b ∈ (Block.readAll (Token.scan (Decl.renderAll decls))).value, b.IsSingle := by
      intro b hb
      have hb : relocate .blank b ∈ decls.map Decl.block := hblocks ▸ List.mem_map_of_mem hb
      obtain ⟨d, -, hd⟩ := List.mem_map.1 hb
      exact Block.isSingle_of_relocate hd.symm
    obtain ⟨ds, hds, hmakes'⟩ := Block.ensures_makesAll hsingle hclean'
    have hagain : again.decls = ds := hds
    rw [hagain]
    exact Block.map_template?_eq hmakes' hblocks

/-- Declarations that are printed and checked again have no faults and print the same. They have the
same templates if and only if each printed form is cut into the template that it was made of. -/
theorem check_renderAll (searchLimit : Nat) {text : String}
    (hclean : (check [] searchLimit text).diagnostics = [])
    (hforms : ∀ t, .term t ∈ (check [] searchLimit text).decls → t.Legible) :
    let decls := (check [] searchLimit text).decls
    let again := check [] searchLimit (Decl.renderAll decls)
    again.diagnostics = [] ∧ again.decls.map (Decl.render .source) = decls.map (Decl.render .source) ∧
      (again.decls.map Decl.template? = decls.map Decl.template? ↔
        ∀ t, .term t ∈ decls → t.reread = t.template) := by
  intro decls again
  obtain ⟨hnone, hunplaced, htemplates⟩ := unplaced_check_renderAll hclean hforms
  refine ⟨hnone, ?_, ?_⟩
  · exact Decl.map_render_source_eq hunplaced htemplates fun t ht => join_content_check hclean ht (hforms t ht)
  · rw [htemplates, List.map_inj_left]
    refine ⟨fun h t ht => Option.some.inj (h _ ht), fun h d hd => ?_⟩
    cases d with
    | term t => exact congrArg some (h t hd)
    | type | axm | thm => rfl

/-- A text with a comment, parameters without commas, a form that is left out and one with blanks. -/
def twoSorts : String :=
  "type W V // formulas and variables
term W imp(W p, W q) { (p -> q) }
term V nil
term W eq(V x V y) { x = y }
axiom mp(W p, W q) { -| p  -| imp(p, q) |- q }
axiom sep(W p, V x, V y) { diff (x, y) |- imp(eq(x, y), p) }
thm step(W p, V x, V y) { diff (x y) |- p -| eq(x, y) } = { mp(eq(x, y), p) sep(p x y) }"

theorem check_renderAll_twoSorts :
    let decls := (check [] 5 twoSorts).decls
    let again := check [] 5 (Decl.renderAll decls)
    (check [] 5 twoSorts).diagnostics = [] ∧ (∀ t, .term t ∈ decls → t.Legible) ∧
      again.diagnostics = [] ∧ again.decls.map (Decl.render .source) = decls.map (Decl.render .source) ∧
      again.decls.map Decl.template? = decls.map Decl.template? := by
  obtain ⟨hclean, hall⟩ : (check [] 5 twoSorts).diagnostics = [] ∧ (check [] 5 twoSorts).decls.all (fun d =>
      d.term?.all fun t => decide (t.Legible ∧ t.reread = t.template)) = true := by decide +kernel
  have hforms : ∀ t, .term t ∈ (check [] 5 twoSorts).decls → t.Legible ∧ t.reread = t.template :=
    fun t ht => of_decide_eq_true (List.all_eq_true.1 hall _ ht)
  obtain ⟨hnone, hprints, htemplates⟩ := check_renderAll 5 hclean fun t ht => (hforms t ht).1
  exact ⟨hclean, fun t ht => (hforms t ht).1, hnone, hprints, htemplates.2 fun t ht => (hforms t ht).2⟩

/-- Two slashes run together into a comment, which takes the closing brace with it. -/
theorem check_renderAll_ne :
    let decls := (check [] 5 "type W term W a {/ /}").decls
    let again := check [] 5 (Decl.renderAll decls)
    (check [] 5 "type W term W a {/ /}").diagnostics = [] ∧
      again.diagnostics ≠ [] ∧ again.decls.map (Decl.render .source) ≠ decls.map (Decl.render .source) ∧
      again.decls.map Decl.template? ≠ decls.map Decl.template? := by
  decide +kernel

/-- Two parameters run together into a word that is none, and only the template changes. -/
example :
    let decls := (check [] 5 "type W term W f(W x, W y) {x y}").decls
    let again := check [] 5 (Decl.renderAll decls)
    again.diagnostics = [] ∧ again.decls.map (Decl.render .source) = decls.map (Decl.render .source) ∧
      again.decls.map Decl.template? ≠ decls.map Decl.template? := by
  decide +kernel

end Document

end Sequitur
