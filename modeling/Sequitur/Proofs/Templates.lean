import Mathlib.Data.List.Nodup
import Mathlib.Data.List.SplitBy
import Sequitur.Template

/-!
# Templates of forms

A form is cut into pieces: a word that is a parameter is one piece, any other word is cut into its longest
runs of word characters and of other characters. The template of a form writes each piece that is a
parameter as its argument and all other pieces as they are, with no fragment to spare
(`Template.lossless_ofForm`). So with the parameters in their own places it gives the words of the form
back (`Template.render_ofForm`).
-/

namespace Sequitur

def Fragment.isText : Fragment → Bool
  | .text _ => true
  | .arg _ => false

namespace Template

/-! ### Pieces -/

theorem flatten_runs (cs : List Char) : (runs cs).flatten = cs := by
  induction cs with
  | nil => rfl
  | cons c cs ih =>
    rw [runs]
    split
    · next d run rest h =>
      rw [h] at ih
      split
      · rw [List.flatten_cons, List.cons_append, ← List.flatten_cons, ih]
      · rw [List.flatten_cons, ih]
        rfl
    · rw [List.flatten_cons, ih]
      rfl

theorem ne_nil_of_mem_runs {cs r : List Char} (h : r ∈ runs cs) : r ≠ [] := by
  induction cs with
  | nil => exact absurd h List.not_mem_nil
  | cons c cs ih =>
    rw [runs] at h
    split at h
    · next d run rest hruns =>
      rw [hruns] at ih
      split at h
      · rcases List.mem_cons.1 h with rfl | h
        · exact List.cons_ne_nil _ _
        · exact ih (List.mem_cons_of_mem _ h)
      · rcases List.mem_cons.1 h with rfl | h
        · exact List.cons_ne_nil _ _
        · exact ih h
    · rcases List.mem_cons.1 h with rfl | h
      · exact List.cons_ne_nil _ _
      · exact ih h

/-- Whether two characters can stand in one run. -/
def sameClass (c d : Char) : Bool := isWordChar c == isWordChar d

/-- One character more: it joins the first run if it is of its class, and is a run of its own otherwise. -/
theorem isChain_runs (cs : List Char) :
    (∀ r ∈ runs cs, r.IsChain fun c d => sameClass c d) ∧
      (runs cs).IsChain fun r s => ∃ hr hs, sameClass (r.getLast hr) (s.head hs) = false := by
  induction cs with
  | nil => exact ⟨List.forall_mem_nil _, .nil⟩
  | cons c cs ih =>
    rw [runs]
    split
    · next d run rest h =>
      rw [h] at ih
      obtain ⟨hruns, hbetween⟩ := ih
      obtain ⟨hrun, hrest⟩ := List.forall_mem_cons.1 hruns
      split
      · next hclass =>
        refine ⟨List.forall_mem_cons.2 ⟨hrun.cons_cons (beq_iff_eq.2 hclass), hrest⟩, ?_⟩
        rw [List.isChain_cons] at hbetween ⊢
        refine ⟨fun s hs => ?_, hbetween.2⟩
        obtain ⟨hr, hne, hlast⟩ := hbetween.1 s hs
        exact ⟨List.cons_ne_nil _ _, hne, by rwa [List.getLast_cons hr]⟩
      · next hclass =>
        refine ⟨List.forall_mem_cons.2 ⟨.singleton c, hruns⟩, hbetween.cons_cons ?_⟩
        exact ⟨List.cons_ne_nil _ _, List.cons_ne_nil _ _, beq_eq_false_iff_ne.2 hclass⟩
    · next hruns =>
      -- there is no run without characters, so there are no runs
      have hnil : runs cs = [] := by
        rcases hcs : runs cs with _ | ⟨_ | ⟨d, run⟩, rest⟩
        · rfl
        · exact absurd rfl (ne_nil_of_mem_runs (hcs ▸ List.mem_cons_self ..))
        · exact absurd hcs (hruns d run rest)
      rw [hnil]
      exact ⟨List.forall_mem_singleton.2 (.singleton c), .singleton _⟩

theorem runs_eq_splitBy (cs : List Char) : runs cs = cs.splitBy sameClass := by
  obtain ⟨hruns, hbetween⟩ := isChain_runs cs
  have hnil : [] ∉ runs cs := fun h => ne_nil_of_mem_runs h rfl
  exact (List.splitBy_eq_iff.2 ⟨(flatten_runs cs).symm, hnil, hruns, hbetween⟩).symm

theorem join_pieces (params : List String) (word : String) : String.join (pieces params word) = word := by
  unfold pieces
  split
  · rw [String.join_cons, String.join_nil, String.append_empty]
  · rw [← String.toList_inj, String.toList_join, List.flatMap_map]
    simp only [String.toList_ofList]
    rw [List.flatMap_id', flatten_runs]

theorem mem_params_or_ne_of_mem_pieces {params : List String} {word piece : String}
    (h : piece ∈ pieces params word) : piece ∈ params ∨ piece ≠ "" := by
  unfold pieces at h
  split at h
  · next hword =>
    rw [List.mem_singleton.1 h]
    exact .inl (List.contains_iff_mem.1 hword)
  · obtain ⟨r, hr, rfl⟩ := List.mem_map.1 h
    refine .inr fun he => ne_nil_of_mem_runs hr ?_
    rw [← String.toList_ofList (l := r), he]
    rfl

/-! ### Fragments -/

/-- Arguments are among `n`, no text is empty, and texts do not follow one another. -/
structure Normal (n : Nat) (t : Template) : Prop where
  arg_lt : ∀ i, .arg i ∈ t → i < n
  text_ne : ∀ s, .text s ∈ t → s ≠ ""
  apart : t.IsChain fun f g => ¬(f.isText = true ∧ g.isText = true)

theorem normal_nil (n : Nat) : Normal n [] := ⟨nofun, nofun, .nil⟩

theorem Normal.tail {n : Nat} {f : Fragment} {t : Template} (h : Normal n (f :: t)) : Normal n t :=
  ⟨fun i hi => h.arg_lt i (List.mem_cons_of_mem _ hi), fun s hs => h.text_ne s (List.mem_cons_of_mem _ hs),
    h.apart.tail⟩

theorem Normal.arg_cons {n i : Nat} {t : Template} (h : Normal n t) (hi : i < n) : Normal n (.arg i :: t) where
  arg_lt j hj := by
    rcases List.mem_cons.1 hj with hj | hj
    · cases hj
      exact hi
    · exact h.arg_lt j hj
  text_ne s hs := by
    rcases List.mem_cons.1 hs with hs | hs
    · cases hs
    · exact h.text_ne s hs
  apart := List.isChain_cons.2 ⟨fun g _ hg => Bool.false_ne_true hg.1, h.apart⟩

theorem Normal.text_cons {n : Nat} {s : String} {t : Template} (h : Normal n t) (hs : s ≠ "")
    (ht : ∀ f ∈ t.head?, f.isText = false) : Normal n (.text s :: t) where
  arg_lt j hj := by
    rcases List.mem_cons.1 hj with hj | hj
    · cases hj
    · exact h.arg_lt j hj
  text_ne r hr := by
    rcases List.mem_cons.1 hr with hr | hr
    · cases hr
      exact hs
    · exact h.text_ne r hr
  apart := List.isChain_cons.2 ⟨fun g hg hgs => Bool.false_ne_true ((ht g hg).symm.trans hgs.2), h.apart⟩

theorem Normal.cons {params : List String} {piece : String} {t : Template} (h : Normal params.length t)
    (hpiece : piece ∈ params ∨ piece ≠ "") : Normal params.length (cons params piece t) := by
  unfold Template.cons
  split
  · next i hi =>
    obtain ⟨hlt, -⟩ := List.idxOf?_eq_some_iff.1 hi
    exact h.arg_cons hlt
  · next hnone =>
    have hne := hpiece.resolve_left (List.idxOf?_eq_none_iff.1 hnone)
    split
    · next s t =>
      have hjoined : piece ++ s ≠ "" := fun he => hne (String.append_eq_empty_iff.1 he).1
      refine h.tail.text_cons hjoined fun f hf => ?_
      exact Bool.eq_false_iff.2 fun hft => (List.isChain_cons.1 h.apart).1 f hf ⟨rfl, hft⟩
    · next hnone =>
      refine h.text_cons hne fun f hf => ?_
      cases f with
      | arg i => rfl
      | text s =>
        obtain ⟨rest, rfl⟩ := List.head?_eq_some_iff.1 hf
        exact absurd rfl (hnone s rest)

/-! ### Arguments -/

/-- What a piece of a form stands for: the argument of the parameter that it is, or else itself. -/
def argument (params args : List String) (piece : String) : String :=
  ((params.zip args).lookup piece).getD piece

theorem lookup_zip {params args : List String} (h : args.length = params.length) (piece : String) :
    (params.zip args).lookup piece = (params.idxOf? piece).bind (args[·]?) := by
  induction params generalizing args with
  | nil => rfl
  | cons p params ih =>
    obtain ⟨a, args, rfl⟩ := List.exists_cons_of_length_eq_add_one h
    rw [List.zip_cons_cons, List.lookup_cons, List.idxOf?_cons, ih (Nat.succ.inj h)]
    by_cases hp : piece = p
    · simp [hp]
    · rw [beq_eq_false_iff_ne.2 hp, if_neg (by simpa using Ne.symm hp)]
      cases params.idxOf? piece <;> rfl

theorem argument_self (params : List String) (piece : String) : argument params params piece = piece := by
  rw [argument, lookup_zip rfl]
  cases h : params.idxOf? piece with
  | none => rfl
  | some i =>
    obtain ⟨hi, he, -⟩ := List.idxOf?_eq_some_iff.1 h
    rw [Option.bind_some, List.getElem?_eq_getElem hi, he, Option.getD_some]

theorem map_argument {params args : List String} (hparams : params.Nodup) (h : args.length = params.length) :
    params.map (argument params args) = args := by
  refine List.ext_getElem (by rw [List.length_map, h]) fun i hi hi' => ?_
  rw [List.length_map] at hi
  have hindex : params.idxOf? params[i] = some i := by
    refine List.idxOf?_eq_some_iff.2 ⟨hi, rfl, fun j hj he => ?_⟩
    exact Nat.ne_of_lt hj (hparams.getElem_inj_iff.1 he)
  rw [List.getElem_map, argument, lookup_zip h, hindex, Option.bind_some, List.getElem?_eq_getElem hi',
    Option.getD_some]

theorem render_cons {params args : List String} (h : args.length = params.length) (piece : String)
    (t : Template) : (cons params piece t).render args = argument params args piece ++ t.render args := by
  have htext : ∀ (s : String) (t : Template), render (.text s :: t) args = s ++ t.render args :=
    fun _ _ => String.join_cons
  rw [argument, lookup_zip h]
  unfold cons
  split
  · next i hi =>
    obtain ⟨hlt, -⟩ := List.idxOf?_eq_some_iff.1 hi
    rw [hi, Option.bind_some, List.getElem?_eq_getElem (h ▸ hlt), Option.getD_some]
    show String.join (args.getD i "" :: t.map (Fragment.render args)) = _
    rw [String.join_cons, List.getD_eq_getElem?_getD, List.getElem?_eq_getElem (h ▸ hlt), Option.getD_some]
    rfl
  · next hnone =>
    rw [hnone, Option.bind_none, Option.getD_none]
    split
    · rw [htext, htext, String.append_assoc]
    · exact htext ..

theorem render_foldr {params args : List String} (h : args.length = params.length) (ps : List String) :
    (ps.foldr (cons params) []).render args = String.join (ps.map (argument params args)) := by
  induction ps with
  | nil => rfl
  | cons p ps ih => rw [List.foldr_cons, render_cons h, ih, List.map_cons, String.join_cons]

/-- A word of a form with the arguments in the places of the parameters. -/
def written (params args : List String) (word : String) : String :=
  if word ∈ params then argument params args word
  else String.join ((word.toList.splitBy sameClass).map fun run => argument params args (String.ofList run))

theorem join_map_pieces (params args : List String) (word : String) :
    String.join ((pieces params word).map (argument params args)) = written params args word := by
  unfold pieces written
  by_cases h : word ∈ params
  · rw [if_pos (List.contains_iff_mem.2 h), if_pos h, List.map_singleton, String.join_cons, String.join_nil,
      String.append_empty]
  · rw [if_neg (mt List.contains_iff_mem.1 h), if_neg h, runs_eq_splitBy, List.map_map]
    rfl

theorem render_ofForm_args {params args : List String} (h : args.length = params.length) (form : List String) :
    (ofForm params form).render args = String.join (form.map (written params args)) := by
  rw [ofForm, render_foldr h]
  induction form with
  | nil => rfl
  | cons w ws ih =>
    rw [List.flatMap_cons, List.map_append, String.join_append, ih, join_map_pieces, List.map_cons,
      String.join_cons]

/-- Nothing of a form is lost but the blanks between its words. -/
theorem render_ofForm (params form : List String) : (ofForm params form).render params = String.join form := by
  have hword : ∀ word, written params params word = word := fun word => by
    rw [← join_map_pieces, List.map_congr_left fun p _ => argument_self params p, List.map_id', join_pieces]
  rw [render_ofForm_args rfl, List.map_congr_left fun w _ => hword w, List.map_id']

theorem normal_ofForm (params form : List String) : Normal params.length (ofForm params form) := by
  have hpieces : ∀ p ∈ form.flatMap (pieces params), p ∈ params ∨ p ≠ "" := by
    intro p hp
    obtain ⟨word, -, hp⟩ := List.mem_flatMap.1 hp
    exact mem_params_or_ne_of_mem_pieces hp
  rw [ofForm]
  generalize form.flatMap (pieces params) = ps at hpieces
  induction ps with
  | nil => exact normal_nil _
  | cons p ps ih =>
    obtain ⟨hp, hps⟩ := List.forall_mem_cons.1 hpieces
    exact (ih hps).cons hp

/-- The template of a form has no fragment to spare, and writes the form with arguments in the places of the
parameters. -/
theorem lossless_ofForm {params : List String} (hparams : params.Nodup) (form : List String) :
    Normal params.length (ofForm params form) ∧
    (ofForm params form).render params = String.join form ∧
    ∀ args : List String, args.length = params.length →
      params.map (argument params args) = args ∧
        (ofForm params form).render args = String.join (form.map (written params args)) :=
  ⟨normal_ofForm params form, render_ofForm params form, fun _ h =>
    ⟨map_argument hparams h, render_ofForm_args h form⟩⟩

/-- A parameter of several runs, one that is a run of others, and an empty word. -/
theorem lossless_ofForm_mixed :
    ["p", "¬q", "_1é"].Nodup ∧ ["(a)", "b", ""].length = ["p", "¬q", "_1é"].length ∧
    ofForm ["p", "¬q", "_1é"] ["(p→_1é)", "", "¬q", "¬q", "max", "p"] =
      [.text "(", .arg 0, .text "→", .arg 2, .text ")", .arg 1, .arg 1, .text "max", .arg 0] ∧
    Normal 3 (ofForm ["p", "¬q", "_1é"] ["(p→_1é)", "", "¬q", "¬q", "max", "p"]) ∧
    (ofForm ["p", "¬q", "_1é"] ["(p→_1é)", "", "¬q", "¬q", "max", "p"]).render ["(a)", "b", ""] =
      "((a)→)bbmax(a)" := by
  have hparams : ["p", "¬q", "_1é"].Nodup := by decide
  obtain ⟨hnormal, -, hargs⟩ := lossless_ofForm hparams ["(p→_1é)", "", "¬q", "¬q", "max", "p"]
  refine ⟨hparams, rfl, by decide +kernel, hnormal, ?_⟩
  rw [(hargs ["(a)", "b", ""] rfl).2]
  decide +kernel

end Template

end Sequitur
