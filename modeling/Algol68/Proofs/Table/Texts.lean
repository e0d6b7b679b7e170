import Algol68.Program.Interner
import Algol68.Proofs.Table.Entry

/-! Texts are kept once. Tags count the texts in the order in which they were first seen, after the empty
text, so a text has one tag and a tag stands for one text, from when the text is first interned on. -/

namespace Algol68

namespace Interner

/-- The interner after some texts were interned, one after the other. -/
def interned (ss : List String) : Interner := ss.foldl (fun i s => (i.intern s).2) .new

variable {i : Interner} {s : String} {t : Tag}

theorem intern_eq (i : Interner) (s : String) :
    i.intern s = (⟨(enter i.texts s).1⟩, ⟨(enter i.texts s).2⟩) := by
  rw [intern, enter]
  cases i.texts.idxOf? s <;> rfl

theorem interned_append (ss : List String) (s : String) (us : List String) :
    interned (ss ++ s :: us) = us.foldl (fun i s => (i.intern s).2) ((interned ss).intern s).2 := by
  rw [interned, List.foldl_append]
  rfl

theorem texts_foldl_intern (i : Interner) (ss : List String) :
    (ss.foldl (fun i s => (i.intern s).2) i).texts = enterAll i.texts ss := by
  induction ss generalizing i with
  | nil => rfl
  | cons s ss ih => rw [List.foldl_cons, ih, intern_eq, enterAll_cons]

/-- A new interner is one that was given the empty text. -/
theorem new_eq : new = (intern ⟨#[]⟩ "").2 := by
  rw [intern_eq, enter_of_notMem (Array.not_mem_empty _)]
  rfl

theorem texts_interned (ss : List String) : (interned ss).texts = enterAll #[] ("" :: ss) := by
  rw [interned, texts_foldl_intern, new_eq, intern_eq, enterAll_cons]

theorem nodup_interned (ss : List String) : (interned ss).texts.toList.Nodup := by
  rw [texts_interned]
  exact nodup_enterAll .nil _

/-- The tags below the number of texts are those of the texts that were seen. -/
theorem getElem?_interned_iff (ss : List String) (s : String) (t : Tag) :
    (interned ss).texts[t.index]? = some s ↔ s ∈ "" :: ss ∧ ((interned ss).intern s).1 = t := by
  have seen : s ∈ (interned ss).texts ↔ s ∈ "" :: ss := by simp [texts_interned, mem_enterAll]
  rw [intern_eq, ← seen]
  constructor
  · intro h
    rw [enter_of_getElem? (nodup_interned ss) h]
    exact ⟨Array.mem_of_getElem? h, rfl⟩
  · rintro ⟨hs, rfl⟩
    obtain ⟨k, hk, there⟩ := enter_of_mem hs
    rw [hk]
    exact there

theorem lookup_of_getElem? (h : i.texts[t.index]? = some s) : i.lookup t = s := by
  rw [lookup, Array.getD_eq_getD_getElem?, h]
  rfl

theorem lookup_interned (before : List String) (s : String) (later : List String) :
    (interned (before ++ s :: later)).lookup ((interned before).intern s).1 = s := by
  refine lookup_of_getElem? ?_
  rw [interned_append, texts_foldl_intern, intern_eq]
  exact getElem?_enterAll _ (getElem?_enter _ _)

theorem intern_eq_intern_iff (before : List String) (s : String) (between : List String) (u : String) :
    ((interned before).intern s).1 = ((interned (before ++ s :: between)).intern u).1 ↔ s = u := by
  rw [interned_append, intern_eq, intern_eq _ u, texts_foldl_intern, Tag.mk.injEq]
  exact enter_eq_enter_iff (nodup_interned before) _ _ _

/-- The tag of a text counts the texts that were seen before it first was. -/
theorem intern_interned (ss : List String) (s : String) :
    ((interned ss).intern s).1 = ⟨((("" :: ss).takeWhile (· ≠ s)).toFinset).card⟩ := by
  rw [intern_eq, texts_interned, enter_enterAll_empty]

theorem size_interned (ss : List String) : (interned ss).size = ("" :: ss).toFinset.card := by
  rw [size, texts_interned, size_enterAll_empty]

theorem intern_empty (ss : List String) : ((interned ss).intern "").1 = .empty := by
  rw [intern_interned, List.takeWhile_cons_of_neg (by simp)]
  rfl

theorem lookup_interned_eq_empty_iff (ss : List String) (t : Tag) :
    (interned ss).lookup t = "" ↔ t.index = 0 ∨ (interned ss).size ≤ t.index := by
  cases h : (interned ss).texts[t.index]? with
  | none =>
    rw [lookup, Array.getD_eq_getD_getElem?, h]
    exact iff_of_true rfl (.inr (Array.getElem?_eq_none_iff.mp h))
  | some s =>
    have inside : t.index < (interned ss).size := (Array.getElem?_eq_some_iff.mp h).1
    rw [lookup_of_getElem? h, or_iff_left (Nat.not_le_of_lt inside)]
    constructor
    · rintro rfl
      rw [← ((getElem?_interned_iff ss "" t).mp h).2, intern_empty]
      rfl
    · intro h0
      have first := (getElem?_interned_iff ss "" .empty).mpr ⟨List.mem_cons_self, intern_empty ss⟩
      rw [h0, show 0 = Tag.empty.index from rfl, first] at h
      exact (Option.some.inj h).symm

end Interner

/-- An interner with an index beside its texts, which has the tag of each text. -/
structure IndexedTexts where
  texts : Array String
  index : Std.HashMap String Tag

namespace IndexedTexts

/-- The tag of a text, looked up in the index. -/
def intern (i : IndexedTexts) (s : String) : Tag × IndexedTexts :=
  match i.index[s]? with
  | some t => (t, i)
  | none => (⟨i.texts.size⟩, ⟨i.texts.push s, i.index.insert s ⟨i.texts.size⟩⟩)

def interned (ss : List String) : IndexedTexts :=
  ("" :: ss).foldl (fun i s => (i.intern s).2) ⟨#[], ∅⟩

/-- An indexed interner has the texts of another interner, and the index is inverse to them. -/
structure Matches (i : IndexedTexts) (j : Interner) : Prop where
  texts : i.texts = j.texts
  inverse : Indexes Tag.index i.index i.texts

variable {i : IndexedTexts} {j : Interner}

theorem Matches.intern (h : i.Matches j) (s : String) :
    (i.intern s).1 = (j.intern s).1 ∧ (i.intern s).2.Matches (j.intern s).2 := by
  cases hk : j.texts.idxOf? s with
  | some k =>
    have found : i.index[s]? = some ⟨k⟩ := by
      rw [h.inverse, h.texts]
      exact getElem?_of_idxOf? hk
    simp only [IndexedTexts.intern, Interner.intern, found, hk]
    exact ⟨trivial, h⟩
  | none =>
    have hs : s ∉ i.texts := h.texts ▸ Array.idxOf?_eq_none_iff.mp hk
    have absent : i.index[s]? = none := h.inverse.getElem?_of_notMem hs
    simp only [IndexedTexts.intern, Interner.intern, absent, hk]
    exact ⟨by rw [h.texts], by rw [h.texts], h.inverse.push (fun _ _ => congrArg Tag.mk) hs rfl⟩

theorem Matches.foldl_intern (h : i.Matches j) (ss : List String) :
    Matches (ss.foldl (fun i s => (i.intern s).2) i) (ss.foldl (fun j s => (j.intern s).2) j) := by
  induction ss generalizing i j with
  | nil => exact h
  | cons s ss ih => exact ih (h.intern s).2

theorem interned_matches (ss : List String) : (interned ss).Matches (Interner.interned ss) := by
  have empty : Matches ⟨#[], ∅⟩ ⟨#[]⟩ := ⟨rfl, .empty Tag.index⟩
  rw [interned, Interner.interned, Interner.new_eq]
  exact empty.foldl_intern ("" :: ss)

end IndexedTexts

namespace Interner

/-- Texts are kept once. The tag of a text stands for it from then on, and it is that of another text
exactly if the texts are equal. The tags count the texts in the order in which they were first seen, the
empty text before all others; there are as many as texts, and each is the tag of the text at its place. The
tags that were not given out stand for the empty text, and of the others only the first does. An index from
texts to tags, kept beside the texts, is inverse to them and gives the same tags. -/
theorem texts_kept_once :
    (∀ before s later,
      (interned (before ++ s :: later)).lookup ((interned before).intern s).1 = s) ∧
    (∀ before s between u,
      ((interned before).intern s).1 = ((interned (before ++ s :: between)).intern u).1 ↔ s = u) ∧
    (∀ ss, (interned ss).texts.toList = ("" :: ss).eraseDups) ∧
    (∀ ss s, ((interned ss).intern s).1 = ⟨((("" :: ss).takeWhile (· ≠ s)).toFinset).card⟩) ∧
    (∀ ss, ((interned ss).intern "").1 = .empty) ∧
    (∀ ss, (interned ss).size = ("" :: ss).toFinset.card) ∧
    (∀ ss s t, (interned ss).texts[t.index]? = some s ↔
      s ∈ "" :: ss ∧ ((interned ss).intern s).1 = t) ∧
    (∀ ss t, (interned ss).lookup t = "" ↔ t.index = 0 ∨ (interned ss).size ≤ t.index) ∧
    ∀ ss, (IndexedTexts.interned ss).Matches (interned ss) ∧
      ∀ s, ((IndexedTexts.interned ss).intern s).1 = ((interned ss).intern s).1 := by
  refine ⟨lookup_interned, intern_eq_intern_iff, fun ss => ?_, intern_interned, intern_empty,
    size_interned, getElem?_interned_iff, lookup_interned_eq_empty_iff, fun ss => ?_⟩
  · rw [texts_interned, toList_enterAll_empty]
  · have h := IndexedTexts.interned_matches ss
    exact ⟨h, fun s => (h.intern s).1⟩

end Interner

end Algol68
