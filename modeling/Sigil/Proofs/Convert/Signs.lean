import Sigil.Proofs.Edit.Offsets
import Sigil.Proofs.Walk.Binding
import Sigil.Proofs.Walk.Spans

/-!
# Proofs/Convert/Signs — the signs that a conversion leaves

    signs of the new script  =  signs outside the edited spans

Short names are spelled with `$` and letters, bare or quoted, so no edit brings a sign
(`sigil_notMem_newText`).  Once the spans have covered all signs, the script has none left, and a
second conversion stops before it parses anything.
-/

namespace Sigil.Conversion

variable {τ : Type} [Tree τ] {code : Text} {root : τ} {c : Conversion}

/-- A walk writes short names and quotes. -/
theorem notMem_newText {x : Char} (hquote : x ≠ '\x27') (hname : ∀ i, x ∉ ShortName.name i)
    {e : Edit} (he : e ∈ (({} : Walker).walk root).edits) : x ∉ e.newText := by
  intro hx
  have he : e ∈ Lexical.walked 0 [root] := he
  obtain ⟨o, i, rfl⟩ := Lexical.exists_name_of_mem_walked he
  rcases Occurrence.mem_newText_edit hx with hx | hx
  · exact hquote hx
  · exact hname i hx

/-- A walk writes no sign. -/
theorem sigil_notMem_newText {e : Edit} (he : e ∈ (({} : Walker).walk root).edits) :
    sigil ∉ e.newText := notMem_newText (by decide) ShortName.hash_notMem_name he

/-- **A finished conversion** says which edits it made: they lead from the old script to the new
one, and the walk found them. -/
theorem patch_of_ofTree (h : ofTree code root = .ok c) :
    Edit.patch code c.edits = .ok c.code ∧
      ∀ e ∈ c.edits, e ∈ (({} : Walker).walk root).edits := by
  have hnone : Edit.patch code [] = .ok code ∧
      ∀ e ∈ ([] : List Edit), e ∈ (({} : Walker).walk root).edits :=
    ⟨Edit.patch_nil code, fun e he => absurd he List.not_mem_nil⟩
  rw [ofTree] at h
  split at h
  · obtain rfl := Except.ok.inj h
    exact hnone
  simp only at h
  split at h
  · obtain rfl := Except.ok.inj h
    exact hnone
  split at h
  · cases h
  next out hout =>
  obtain rfl := Except.ok.inj h
  exact ⟨hout, fun e he => (List.mergeSort_perm _ _).mem_iff.1 he⟩

/-- A finished conversion went by the tree that was parsed. -/
theorem ofTree_of_convert {parse : Parser τ} {o : ConvertOptions}
    (h : (convert parse code o).2 = .ok c) :
    ofTree code (parse o.language code).root = .ok c := by
  rw [convert] at h
  split at h
  · next hsigil =>
    obtain rfl := Except.ok.inj h
    exact ofTree_of_notMem _ (by simpa using hsigil)
  split at h
  · cases h
  next root haccept =>
  have hroot : root = (parse o.language code).root := by
    rw [Reading.accept] at haccept
    split at haccept
    · cases haccept
      rfl
    · split at haccept
      · cases haccept
      · cases haccept
        rfl
  split at h
  · cases h
  next hc =>
  obtain rfl := Except.ok.inj h
  exact hroot ▸ hc

/-- A finished conversion went by some tree. -/
theorem exists_ofTree_of_convert {parse : Parser τ} {o : ConvertOptions}
    (h : (convert parse code o).2 = .ok c) : ∃ root : τ, ofTree code root = .ok c :=
  ⟨_, ofTree_of_convert h⟩

/-- Text without the sign is left alone, whatever would be parsed. -/
theorem convert_of_notMem (parse : Parser τ) (o : ConvertOptions) (hsigil : sigil ∉ code) :
    convert parse code o = ([], .ok { code := code }) := by
  rw [convert, if_pos (by simpa using hsigil)]

/-- **The signs of a converted script** are those of the script outside the edited spans, in their
order and each where the edits move it.  If the spans cover all signs, then every further conversion
gives the script back, without an edit and without a notice. -/
theorem idxsOf_sigil_convert {parse : Parser τ} {o : ConvertOptions}
    (h : (convert parse code o).2 = .ok c) :
    (c.code.idxsOf sigil).map ((↑) : Nat → Int)
        = ((code.idxsOf sigil).filter fun q => Edit.Outside c.edits (q : Nat)).map
            (fun q : Nat => Edit.moved c.edits q) ∧
      ((∀ q : Nat, code[q]? = some sigil → ∃ e ∈ c.edits, e.start ≤ q ∧ (q : Int) < e.stop) →
        ∀ {σ : Type} [Tree σ] (again : Parser σ) (o' : ConvertOptions),
          convert again c.code o' = ([], .ok { code := c.code })) := by
  obtain ⟨root, hroot⟩ := exists_ofTree_of_convert h
  obtain ⟨hpatch, hedits⟩ := patch_of_ofTree hroot
  have hsigns := Edit.idxsOf_patch hpatch fun e he => sigil_notMem_newText (hedits e he)
  refine ⟨hsigns, fun hcovered σ _ again o' => convert_of_notMem again o' fun hleft => ?_⟩
  have hempty : c.code.idxsOf sigil = [] := by
    refine List.map_eq_nil_iff.1 (hsigns.trans ?_)
    rw [List.map_eq_nil_iff, List.filter_eq_nil_iff]
    intro q hq hout
    obtain ⟨e, he, hinside⟩ := hcovered q (Text.mem_idxsOf.1 hq)
    exact of_decide_eq_true hout e he hinside
  exact Text.idxsOf_eq_nil_iff.1 hempty hleft

/-- The text of `Tree.nested`. -/
def nestedText : Text := "class\x7b#x=#x in class\x7b#y\x7d\x7d".toList

theorem idxsOf_sigil_convert_nested :
    ∃ c, (convert (fun _ _ => ⟨Tree.nested, none⟩) nestedText { filename := "a.js" }).2 = .ok c ∧
      c.code.idxsOf sigil = [] ∧
      ∀ {σ : Type} [Tree σ] (again : Parser σ) (o : ConvertOptions),
        convert again c.code o = ([], .ok { code := c.code }) := by
  have hconvert : (convert (fun _ _ => ⟨Tree.nested, none⟩) nestedText
      { filename := "a.js" }).2 = .ok _ :=
    convert_of_ofTree ⟨rfl, fun _ => rfl⟩ (ofTree_nested (by decide) rfl)
  obtain ⟨hsigns, hagain⟩ := idxsOf_sigil_convert hconvert
  refine ⟨_, hconvert, ?_, fun again o => hagain (fun q hq => ?_) again o⟩
  · exact List.map_eq_nil_iff.1 (hsigns.trans (by decide))
  · have hcovered : ∀ q ∈ nestedText.idxsOf sigil,
        ∃ e ∈ ([⟨6, 8, "$a".toList⟩, ⟨9, 11, "'$a'".toList⟩, ⟨21, 23, "$b".toList⟩] : List Edit),
          e.start ≤ q ∧ (q : Int) < e.stop := by decide
    exact hcovered q (Text.mem_idxsOf.2 hq)

end Sigil.Conversion
