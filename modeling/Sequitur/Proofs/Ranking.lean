import Sequitur.Proofs.HoleNames
import Sequitur.Proofs.Replaying
import Sequitur.Proofs.Violations

/-!
# Lists of candidates

The candidates for a step are the substitutions that were found, each once, with the most informative first
(`Candidate.exact_candidates`). Two of them count as one if they are spelled out alike. If no name of a hole
has a semicolon, that is the case only if they bind the same holes to the same keys: keys of words have no
equals sign, so a signature can be read from its end. A semicolon is no separator of the language, though,
and with it in names two candidates can be taken for one, so that one of them is lost
(`Semicolons.not_exact_candidates`).
-/

namespace Sequitur

/-! ### Signatures -/

namespace Tree

mutual
/-- The characters of a key. -/
theorem mem_spell : ∀ (t : Tree), t.Words → ∀ c ∈ t.spell, Token.isBoundary c = false ∨ c ∈ ['(', ',', ')']
  | .node x [], h, c, hc => .inl (h.1.2 c hc)
  | .node x (t :: ts), h, c, hc => by
    rw [spell] at hc
    rcases List.mem_append.1 hc with hc | hc
    · exact .inl (h.1.2 c hc)
    rcases List.mem_cons.1 hc with rfl | hc
    · exact .inr (by decide)
    rcases List.mem_append.1 hc with hc | hc
    · exact mem_spell t h.2.1 c hc
    · exact mem_spellRest ts h.2.2 c hc
theorem mem_spellRest : ∀ (ts : List Tree), WordsAll ts →
    ∀ c ∈ spellRest ts, Token.isBoundary c = false ∨ c ∈ ['(', ',', ')']
  | [], _, c, hc => .inr (by simp_all [spellRest])
  | t :: ts, h, c, hc => by
    rw [spellRest] at hc
    rcases List.mem_cons.1 hc with rfl | hc
    · exact .inr (by decide)
    rcases List.mem_append.1 hc with hc | hc
    · exact mem_spell t h.1 c hc
    · exact mem_spellRest ts h.2 c hc
end

end Tree

namespace Term

theorem not_mem_key {t : Term} (h : t.tree.Words) : '=' ∉ t.key.toList := by
  rw [toList_key]
  intro hm
  rcases Tree.mem_spell t.tree h '=' hm with hb | hb
  · exact absurd hb (by decide)
  · exact absurd hb (by decide)

theorem words_app {head : Token.Ref} {span : Span} {decl : TermDecl} {args : List Term} :
    (tree (.app head span decl args)).Words ↔ IsWord decl.name.text ∧ ∀ a ∈ args, a.tree.Words := by
  rw [tree_app, Tree.Words, Tree.wordsAll_iff, List.forall_mem_map]

theorem inherited_words : Inherited IsWord fun t => t.tree.Words where
  args t ht a ha := by
    cases t with
    | app head span decl args => exact (words_app.1 ht).2 a ha
    | _ => exact absurd ha List.not_mem_nil
  hole t ht hhole := by
    cases t with
    | hole head span param => exact ht.1
    | _ => exact absurd hhole Bool.false_ne_true
  rebuild _ _ _ _ _ ht hargs := words_app.2 ⟨(words_app.1 ht).1, hargs⟩

end Term

namespace Subst

variable {σ τ : Subst}

/-- The names that a substitution binds, with the keys that it binds them to. -/
def entries (σ : Subst) : List (String × String) := σ.toList.map fun e => (e.1, e.2.key)

/-- Bind the same names to the same keys. -/
def SameBindings (σ τ : Subst) : Prop := ∀ x, (σ.get? x).map Term.key = (τ.get? x).map Term.key

theorem sameBindings_iff : SameBindings σ τ ↔ σ.entries = τ.entries := by
  constructor
  · intro h
    have hmap : (σ.map fun _ t => t.key) = τ.map fun _ t => t.key := by
      ext x
      rw [NameMap.get?_map, NameMap.get?_map, h x]
    exact congrArg NameMap.toList hmap
  · intro h x
    have hget : ∀ ρ : Subst, (ρ.get? x).map Term.key = lookupName x ρ.entries := fun ρ =>
      (lookupName_map (fun _ t => Term.key t) x ρ.toList).symm
    rw [hget, hget, h]

instance : Decidable (SameBindings σ τ) := decidable_of_iff _ sameBindings_iff.symm

end Subst

namespace Candidate

open Subst

variable {σ τ : Subst} {es fs : List (String × String)}

/-- The characters of an entry of a signature, the last one first. -/
def entryBack (e : String × String) : List Char := ';' :: (e.2.toList.reverse ++ '=' :: e.1.toList.reverse)

theorem reverse_signature (σ : Subst) :
    (signature σ).toList.reverse = σ.entries.reverse.flatMap entryBack := by
  rw [signature, String.toList_join, List.flatMap_map, List.reverse_flatMap, entries, ← List.map_reverse,
    List.flatMap_map]
  refine List.flatMap_congr fun e _ => ?_
  simp [entryBack]

/-- Read from its end, an entry is a key up to the equals sign and a name up to the entry before. -/
theorem flatMap_entryBack_inj (hes : ∀ e ∈ es, ';' ∉ e.1.toList ∧ '=' ∉ e.2.toList)
    (hfs : ∀ e ∈ fs, ';' ∉ e.1.toList ∧ '=' ∉ e.2.toList)
    (h : es.flatMap entryBack = fs.flatMap entryBack) : es = fs := by
  have hstops : ∀ gs : List (String × String), ∀ c ∈ (gs.flatMap entryBack).head?, (c == ';') = true := by
    intro gs c hc
    cases gs with
    | nil => cases hc
    | cons g gs =>
      cases hc
      rfl
  induction es generalizing fs with
  | nil =>
    cases fs with
    | nil => rfl
    | cons f fs => cases h
  | cons e es ih =>
    cases fs with
    | nil => cases h
    | cons f fs =>
      obtain ⟨⟨he, hek⟩, hes⟩ := List.forall_mem_cons.1 hes
      obtain ⟨⟨hf, hfk⟩, hfs⟩ := List.forall_mem_cons.1 hfs
      simp only [List.flatMap_cons, entryBack, List.cons_append, List.cons.injEq, List.append_assoc,
        true_and] at h
      obtain ⟨hkey, h⟩ := Tree.append_inj_of_stops (p := (· == '=')) (by grind) (by grind) (by simp) (by simp) h
      obtain ⟨hname, h⟩ := Tree.append_inj_of_stops (p := (· == ';')) (by grind) (by grind) (hstops es)
        (hstops fs) (List.cons.inj h).2
      rw [List.reverse_inj, String.toList_inj] at hkey hname
      rw [ih hes hfs h, Prod.ext hname hkey]

/-- Signatures tell substitutions apart if there is no semicolon in names and no equals sign in keys. -/
theorem sameBindings_of_signature_eq (hσ : ∀ e ∈ σ.entries, ';' ∉ e.1.toList ∧ '=' ∉ e.2.toList)
    (hτ : ∀ e ∈ τ.entries, ';' ∉ e.1.toList ∧ '=' ∉ e.2.toList) (h : signature σ = signature τ) :
    SameBindings σ τ := by
  rw [sameBindings_iff, ← List.reverse_inj]
  refine flatMap_entryBack_inj (by simpa using hσ) (by simpa using hτ) ?_
  rw [← reverse_signature, ← reverse_signature, h]

theorem signature_eq_of_sameBindings (h : SameBindings σ τ) : signature σ = signature τ := by
  rw [← String.toList_inj, ← List.reverse_inj, reverse_signature, reverse_signature, sameBindings_iff.1 h]

/-! ### Duplicates -/

/-- There is a place in a list by which the first is found, up to a relation, and the second is not. -/
def Earlier (R : Subst → Subst → Prop) (found : List Subst) (σ τ : Subst) : Prop :=
  ∃ before after, found = before ++ after ∧ (∃ ρ ∈ before, R ρ σ) ∧ ∀ ρ ∈ before, ¬R ρ τ

theorem Earlier.cons {R : Subst → Subst → Prop} {found : List Subst} {ρ : Subst} (h : Earlier R found σ τ)
    (hρ : ¬R ρ τ) : Earlier R (ρ :: found) σ τ := by
  obtain ⟨before, after, rfl, ⟨ρ', hm, hρ'⟩, hnot⟩ := h
  exact ⟨ρ :: before, after, rfl, ⟨ρ', List.mem_cons_of_mem _ hm, hρ'⟩, List.forall_mem_cons.2 ⟨hρ, hnot⟩⟩

/-- Spelled out alike. -/
def SameSignature (σ τ : Subst) : Prop := signature σ = signature τ

theorem not_mem_of_mem_dedup {seen : NameSet} {σs : List Subst} (h : σ ∈ dedup seen σs) :
    signature σ ∉ seen := by
  induction σs generalizing seen with
  | nil => exact absurd h List.not_mem_nil
  | cons ρ σs ih =>
    rw [dedup] at h
    split at h
    · exact ih h
    · next hnew =>
      rcases List.mem_cons.1 h with rfl | h
      · exact fun hm => hnew (NameSet.contains_iff.2 hm)
      · exact fun hm => ih h (NameSet.mem_insert.2 (.inr hm))

/-- Each is kept, unless one that is spelled alike came before. -/
theorem exists_mem_dedup (seen : NameSet) {σs : List Subst} (h : σ ∈ σs) :
    signature σ ∈ seen ∨ ∃ τ ∈ dedup seen σs, SameSignature τ σ := by
  induction σs generalizing seen with
  | nil => exact absurd h List.not_mem_nil
  | cons ρ σs ih =>
    rw [dedup]
    split
    · next hseen =>
      rcases List.mem_cons.1 h with rfl | h
      · exact .inl (NameSet.contains_iff.1 hseen)
      · exact ih seen h
    · rcases List.mem_cons.1 h with rfl | h
      · exact .inr ⟨σ, List.mem_cons_self .., rfl⟩
      rcases ih (seen.insert (signature ρ)) h with hm | ⟨τ, hτ, he⟩
      · rcases NameSet.mem_insert.1 hm with he | hm
        · exact .inr ⟨ρ, List.mem_cons_self .., he.symm⟩
        · exact .inl hm
      · exact .inr ⟨τ, List.mem_cons_of_mem _ hτ, he⟩

/-- What is kept is kept in the order in which it was found. -/
theorem pairwise_dedup (seen : NameSet) (σs : List Subst) :
    (dedup seen σs).Pairwise (Earlier SameSignature σs) := by
  induction σs generalizing seen with
  | nil => exact .nil
  | cons ρ σs ih =>
    rw [dedup]
    split
    · next hseen =>
      refine (ih seen).imp_of_mem fun {σ τ} _ hτ h => h.cons fun he => not_mem_of_mem_dedup hτ ?_
      rw [← show signature ρ = signature τ from he]
      exact NameSet.contains_iff.1 hseen
    · have hnew : ∀ τ ∈ dedup (seen.insert (signature ρ)) σs, ¬SameSignature ρ τ := fun τ hτ he =>
        not_mem_of_mem_dedup hτ (NameSet.mem_insert.2 (.inl (Eq.symm he)))
      refine List.pairwise_cons.2 ⟨fun τ hτ => ?_, ?_⟩
      · exact ⟨[ρ], σs, rfl, ⟨ρ, List.mem_singleton_self ρ, rfl⟩, List.forall_mem_singleton.2 (hnew τ hτ)⟩
      · exact (ih _).imp_of_mem fun {σ τ} _ hτ h => h.cons (hnew τ hτ)

/-! ### Ranks -/

/-- A stable sort puts elements of one rank in the order that they had. -/
theorem pairwise_mergeSort {α : Type} {le : α → α → Bool} (trans : ∀ a b c, le a b → le b c → le a c)
    (total : ∀ a b, le a b || le b a) {E : α → α → Prop} {l : List α} (hl : l.Nodup) (hE : l.Pairwise E) :
    (l.mergeSort le).Pairwise fun a b => le a b = true ∧ (le b a = true → E a b) := by
  rw [List.pairwise_iff_forall_sublist] at hE ⊢
  intro a b hab
  have hsorted : le a b = true := List.pairwise_iff_forall_sublist.1 (List.pairwise_mergeSort trans total l) hab
  have hnodup : (l.mergeSort le).Nodup := (List.mergeSort_perm l le).nodup_iff.2 hl
  refine ⟨hsorted, fun hle => ?_⟩
  have hne : a ≠ b := List.pairwise_iff_forall_sublist.1 hnodup hab
  have ha : a ∈ l := List.mem_mergeSort.1 (hab.subset (by simp))
  have hb : b ∈ l := List.mem_mergeSort.1 (hab.subset (by simp))
  rcases pair_sublist_of_ne ha hb hne with h | h
  · exact hE h
  · -- otherwise both would come after the other
    have hba := List.pair_sublist_mergeSort trans total hle h
    obtain ⟨i, j, hij, hi, hj⟩ := pair_sublist_iff_getElem?.1 hab
    obtain ⟨j', i', hji, hj', hi'⟩ := pair_sublist_iff_getElem?.1 hba
    have hii := (List.getElem?_inj (List.getElem?_eq_some_iff.1 hi).1 hnodup).1 (hi.trans hi'.symm)
    have hjj := (List.getElem?_inj (List.getElem?_eq_some_iff.1 hj).1 hnodup).1 (hj.trans hj'.symm)
    omega

theorem rankLE_iff : rankLE σ τ = true ↔
    filled τ < filled σ ∨ filled σ = filled τ ∧ renamed σ ≤ renamed τ := by
  simp [rankLE]

/-- The one with more holes filled comes first, then the one with fewer holes renamed, then the one that was
found earlier. -/
def Precedes (R : Subst → Subst → Prop) (found : List Subst) (σ τ : Subst) : Prop :=
  filled τ < filled σ ∨ filled σ = filled τ ∧
    (renamed σ < renamed τ ∨ renamed σ = renamed τ ∧ Earlier R found σ τ)

/-- What a list of candidates is to be, where `R` says which of them count as one. -/
structure Exact (R : Subst → Subst → Prop) (found listed : List Subst) : Prop where
  complete : ∀ σ ∈ found, ∃ τ ∈ listed, R τ σ
  sound : listed ⊆ found
  apart : listed.Pairwise fun σ τ => ¬R σ τ
  ranked : listed.Pairwise (Precedes R found)

theorem Exact.congr {R R' : Subst → Subst → Prop} {found listed : List Subst} (h : Exact R found listed)
    (hR : ∀ σ ∈ found, ∀ τ ∈ found, R σ τ ↔ R' σ τ) : Exact R' found listed where
  complete σ hσ := by
    obtain ⟨τ, hτ, he⟩ := h.complete σ hσ
    exact ⟨τ, hτ, (hR τ (h.sound hτ) σ hσ).1 he⟩
  sound := h.sound
  apart := h.apart.imp_of_mem fun {σ τ} hσ hτ hne he => hne ((hR σ (h.sound hσ) τ (h.sound hτ)).2 he)
  ranked := by
    refine h.ranked.imp_of_mem fun {σ τ} hσ hτ hprec => ?_
    refine hprec.imp_right fun hfilled => ⟨hfilled.1, hfilled.2.imp_right fun hrenamed => ⟨hrenamed.1, ?_⟩⟩
    obtain ⟨before, after, hfound, ⟨ρ, hρ, he⟩, hnot⟩ := hrenamed.2
    have hsub : before ⊆ found := hfound ▸ List.subset_append_left ..
    refine ⟨before, after, hfound, ⟨ρ, hρ, (hR ρ (hsub hρ) σ (h.sound hσ)).1 he⟩, fun ρ' hρ' he' => ?_⟩
    exact hnot ρ' hρ' ((hR ρ' (hsub hρ') τ (h.sound hτ)).2 he')

variable {current targets assumptions hyps : List Term}

theorem exact_sameSignature (current targets assumptions hyps : List Term) :
    Exact SameSignature (found current targets assumptions hyps)
      (candidates current targets assumptions hyps) := by
  have hapart : (dedup ∅ (found current targets assumptions hyps)).Pairwise fun σ τ => ¬SameSignature σ τ := by
    refine (pairwise_dedup ∅ _).imp fun {σ τ} h he => ?_
    obtain ⟨before, after, -, ⟨ρ, hρ, hρσ⟩, hnot⟩ := h
    exact hnot ρ hρ (Eq.trans hρσ he)
  have hnodup : (dedup ∅ (found current targets assumptions hyps)).Nodup :=
    hapart.imp fun {σ τ} hne he => hne (congrArg signature he)
  refine ⟨fun σ hσ => ?_, fun σ hσ => found_of_mem_candidates hσ, ?_, ?_⟩
  · rcases exists_mem_dedup ∅ hσ with hm | ⟨τ, hτ, he⟩
    · exact absurd hm (NameSet.not_mem_empty _)
    · exact ⟨τ, mem_candidates.2 hτ, he⟩
  · exact (List.mergeSort_perm _ rankLE).symm.pairwise hapart fun {σ τ} hne he => hne (Eq.symm he)
  · refine (pairwise_mergeSort (fun σ τ ρ => ?_) (fun σ τ => ?_) hnodup (pairwise_dedup ∅ _)).imp
      fun {σ τ} h => ?_
    · simp only [rankLE_iff]
      omega
    · rw [Bool.or_eq_true, rankLE_iff, rankLE_iff]
      omega
    · obtain ⟨hle, hearlier⟩ := h
      rw [rankLE_iff] at hle
      rcases hle with hlt | ⟨hfilled, hrenamed⟩
      · exact .inl hlt
      rcases Nat.lt_or_eq_of_le hrenamed with hlt | heq
      · exact .inr ⟨hfilled, .inl hlt⟩
      · exact .inr ⟨hfilled, .inr ⟨heq, hearlier (rankLE_iff.2 (.inr ⟨hfilled.symm, Nat.le_of_eq heq.symm⟩))⟩⟩

/-- The candidates are the substitutions that were found, each that is spelled alike once, in the order of
their ranks. If no name of a hole has a semicolon, those that bind the same holes to the same keys are the
ones that are spelled alike. -/
theorem exact_candidates (hwords : ∀ t ∈ current ++ targets ++ assumptions ++ hyps, t.tree.Words) :
    (∀ τ, τ ∈ found current targets assumptions hyps ↔ ∃ goal ∈ current, ∃ target ∈ targets, ∃ σ,
      Term.unify ∅ target goal = some σ ∧ (τ = σ ∨
        ∃ a ∈ assumptions, ∃ h ∈ hyps, Term.unify σ a h = some τ ∧ σ.size < τ.size)) ∧
    Exact SameSignature (found current targets assumptions hyps)
      (candidates current targets assumptions hyps) ∧
    ((∀ t ∈ current ++ targets ++ assumptions ++ hyps, t.HolesIn fun v => ';' ∉ v.toList) →
      Exact SameBindings (found current targets assumptions hyps)
        (candidates current targets assumptions hyps)) := by
  refine ⟨fun τ => ?_, exact_sameSignature .., fun hholes => ?_⟩
  · simp only [mem_found, mem_extensions]
  simp only [List.forall_mem_append] at hwords hholes
  obtain ⟨⟨⟨hcurrent, htargets⟩, hassumptions⟩, hhyps⟩ := hwords
  obtain ⟨⟨⟨hcurrent', htargets'⟩, hassumptions'⟩, hhyps'⟩ := hholes
  have hentries : ∀ σ ∈ found current targets assumptions hyps,
      ∀ e ∈ σ.entries, ';' ∉ e.1.toList ∧ '=' ∉ e.2.toList := by
    intro σ hσ e he
    obtain ⟨⟨x, t⟩, hx, rfl⟩ := List.mem_map.1 he
    have hx := NameMap.mem_toList.1 hx
    have hname := within_found (Term.inherited_holesIn _) hσ hcurrent' htargets' hassumptions' hhyps' x t hx
    have hkey := within_found Term.inherited_words hσ hcurrent htargets hassumptions hhyps x t hx
    exact ⟨hname.1, Term.not_mem_key hkey.2⟩
  refine (exact_sameSignature ..).congr fun σ hσ τ hτ => ⟨fun h => ?_, signature_eq_of_sameBindings⟩
  exact sameBindings_of_signature_eq (hentries σ hσ) (hentries τ hτ) h

end Candidate

instance {P : String → Prop} [DecidablePred P] (t : Term) : Decidable (t.HolesIn P) :=
  inferInstanceAs (Decidable (∀ h ∈ t.holes, P h.key))

namespace RepeatedGoal

open OneType Candidate Subst

/-- One goal that stands twice. -/
def repeated : List Term := [join (var "p;q") (var "q"), join (var "p;q") (var "q")]

/-- The first target leaves the hole `D` to the hypothesis, the second one binds it. -/
def partly : List Term := [join (hole "A") (var "q"), hole "D"]

theorem exact_candidates_repeated :
    (∀ t ∈ repeated ++ partly ++ [wrap "g" (hole "D")] ++ [wrap "g" (var "x")], t.tree.Words) ∧
    (∀ t ∈ repeated ++ partly ++ [wrap "g" (hole "D")] ++ [wrap "g" (var "x")],
      t.HolesIn fun v => ';' ∉ v.toList) ∧
    (found repeated partly [wrap "g" (hole "D")] [wrap "g" (var "x")]).map entries =
      [[("A", "p;q")], [("A", "p;q"), ("D", "x")], [("D", "f(p;q,q)")],
        [("A", "p;q")], [("A", "p;q"), ("D", "x")], [("D", "f(p;q,q)")]] ∧
    Exact SameBindings (found repeated partly [wrap "g" (hole "D")] [wrap "g" (var "x")])
      (candidates repeated partly [wrap "g" (hole "D")] [wrap "g" (var "x")]) := by
  have hwords : ∀ t ∈ repeated ++ partly ++ [wrap "g" (hole "D")] ++ [wrap "g" (var "x")], t.tree.Words := by
    decide +kernel
  have hholes : ∀ t ∈ repeated ++ partly ++ [wrap "g" (hole "D")] ++ [wrap "g" (var "x")],
      t.HolesIn fun v => ';' ∉ v.toList := by
    decide +kernel
  exact ⟨hwords, hholes, by decide +kernel, (exact_candidates hwords).2.2 hholes⟩

end RepeatedGoal

namespace Semicolons

open OneType Candidate Subst

/-- Two goals, each met by one target. -/
def meeting : List Term := [join (var "a;?b") (var "d"), wrap "g" (join (var "a") (var "d"))]

/-- What the targets bind is spelled `?A=a;?b;?c=d;` for both. -/
def confused : List Term := [join (hole "?A") (hole "?c"), wrap "g" (join (hole "?A") (hole "?b;?c"))]

/-- With semicolons in the names of holes a substitution can be found and not be listed. -/
theorem not_exact_candidates :
    (∀ t ∈ meeting ++ confused ++ [] ++ [], t.tree.Words) ∧
    (found meeting confused [] []).map entries =
      [[("?A", "a;?b"), ("?c", "d")], [("?A", "a"), ("?b;?c", "d")]] ∧
    ¬Exact SameBindings (found meeting confused [] []) (candidates meeting confused [] []) := by
  refine ⟨by decide +kernel, by decide +kernel, fun h => ?_⟩
  have hlost : ∃ σ ∈ found meeting confused [] [], ∀ τ ∈ dedup ∅ (found meeting confused [] []),
      ¬SameBindings τ σ := by
    decide +kernel
  obtain ⟨σ, hσ, hnone⟩ := hlost
  obtain ⟨τ, hτ, he⟩ := h.complete σ hσ
  exact hnone τ (mem_candidates.1 hτ) he

end Semicolons

end Sequitur
