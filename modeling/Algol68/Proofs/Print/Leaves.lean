import Algol68.Proofs.Run.Segment

/-! Printed text by its leaves. Whatever is printed is a list of leaves, the parts without parts of their
own, in the order of the text; rows, structures, united values and names only say which leaves there are.
The text is laid out leaf by leaf: a number or a truth value is kept apart from what stands before it. -/

namespace Algol68

variable {job : Job} {modes : ModeTable} {store : Store} {m m' : Machine} {v : Value}
  {vs ws rest : List Value} {l : Leaf} {L M : List Leaf} {f : Option Fault} {g : Fault} {T : String}

/-- A piece of printed text. -/
structure Leaf where
  text : String
  /-- Whether it is kept apart from what stands before it. -/
  separated : Bool
  deriving DecidableEq

namespace Leaf

def newline : Leaf := ⟨"\n", false⟩

/-- The text with a leaf behind it. There is one space between them if the leaf is to be kept apart and the
text is not empty and does not end in a blank. -/
def after (T : String) (l : Leaf) : String :=
  if l.separated ∧ T.toList.getLast?.any fun c => !Text.isBlank c then T ++ " " ++ l.text else T ++ l.text

/-- The text with some leaves behind it. -/
def layOut (T : String) (L : List Leaf) : String := L.foldl after T

theorem layOut_append (T : String) (L M : List Leaf) :
    layOut T (L ++ M) = layOut (layOut T L) M := List.foldl_append ..

/-- A leaf to be kept apart stands at the very beginning or behind a blank. -/
theorem exists_before (h : l.separated) (T : String) :
    ∃ U : String, (U = T ∨ U = T ++ " ") ∧ l.after T = U ++ l.text ∧
      ∀ c, U.toList.getLast? = some c → Text.isBlank c := by
  unfold after
  split
  · exact ⟨T ++ " ", .inr rfl, rfl, by simp [Text.isBlank, Text.blankRanges]⟩
  · next blank =>
    refine ⟨T, .inl rfl, rfl, fun c hc => ?_⟩
    simpa [h, hc] using blank

end Leaf

/-! The leaves of values. -/

/-- What printing does with a value. -/
inductive Look where
  | leaf (l : Leaf)
  /-- Its parts are printed in its place. -/
  | inside (parts : List Value)
  | unprintable (f : Fault)

/-- What there is to print of a value. -/
def Value.look (modes : ModeTable) (store : Store) : Value → Look
  | .row r => .inside r.elements.toList
  | .struct fields => .inside fields.toList
  | .union _ payload => .inside [payload]
  | .name n =>
    match store.get n with
    | .ok v => .inside [v]
    | .error f => .unprintable f
  | .procedure (.standard .newline) => .leaf .newline
  | .procedure (.standard .print) => .inside []
  | .procedure (.routine ..) => .unprintable (.of (.valueMismatch "printable value" .procedure))
  | .undefined m => .unprintable (.of (.undefinedValue (modes.describe m)))
  | .int n => .leaf ⟨(Value.int n).leafText, true⟩
  | .real x => .leaf ⟨(Value.real x).leafText, true⟩
  | .bool b => .leaf ⟨(Value.bool b).leafText, true⟩
  | v => .leaf ⟨v.leafText, false⟩

/-- The leaves of some values from left to right, with the fault of the first part that cannot be printed,
if there is one. Only what is finite has leaves. -/
inductive Content (modes : ModeTable) (store : Store) : List Value → List Leaf → Option Fault → Prop where
  | nil : Content modes store [] [] none
  | leaf {v : Value} {vs : List Value} {l : Leaf} {L : List Leaf} {f : Option Fault}
      (look : v.look modes store = .leaf l) (others : Content modes store vs L f) :
      Content modes store (v :: vs) (l :: L) f
  | inside {v : Value} {parts vs : List Value} {L M : List Leaf} {f : Option Fault}
      (look : v.look modes store = .inside parts) (within : Content modes store parts L none)
      (others : Content modes store vs M f) : Content modes store (v :: vs) (L ++ M) f
  | broken {v : Value} {parts vs : List Value} {L : List Leaf} {g : Fault}
      (look : v.look modes store = .inside parts) (within : Content modes store parts L (some g)) :
      Content modes store (v :: vs) L (some g)
  | unprintable {v : Value} {vs : List Value} {g : Fault}
      (look : v.look modes store = .unprintable g) : Content modes store (v :: vs) [] (some g)

namespace Content

theorem append (h : Content modes store vs L none) (h' : Content modes store ws M f) :
    Content modes store (vs ++ ws) (L ++ M) f := by
  generalize hf : (none : Option Fault) = o at h
  induction h with
  | nil => exact h'
  | leaf look others ih => exact .leaf look (ih hf)
  | inside look within others _ ih =>
    rw [List.append_assoc]
    exact .inside look within (ih hf)
  | broken | unprintable => cases hf

theorem append_broken (h : Content modes store vs L (some g)) (ws : List Value) :
    Content modes store (vs ++ ws) L (some g) := by
  generalize hf : some g = o at h ⊢
  induction h with
  | nil => cases hf
  | leaf look others ih => exact .leaf look (ih hf)
  | inside look within others _ ih => exact .inside look within (ih hf)
  | broken look within => exact .broken look within
  | unprintable look => exact .unprintable look

theorem of_append (h : Content modes store (ws ++ vs) L f) :
    (∃ M N, Content modes store ws M none ∧ Content modes store vs N f ∧ L = M ++ N) ∨
      ∃ g, f = some g ∧ Content modes store ws L (some g) := by
  induction ws generalizing L with
  | nil => exact .inl ⟨[], L, .nil, h, rfl⟩
  | cons w ws ih =>
    cases h with
    | leaf look others =>
      rcases ih others with ⟨M, N, hM, hN, rfl⟩ | ⟨g, rfl, hM⟩
      · exact .inl ⟨_, N, .leaf look hM, hN, rfl⟩
      · exact .inr ⟨g, rfl, .leaf look hM⟩
    | inside look within others =>
      rcases ih others with ⟨M, N, hM, hN, rfl⟩ | ⟨g, rfl, hM⟩
      · exact .inl ⟨_, N, .inside look within hM, hN, (List.append_assoc ..).symm⟩
      · exact .inr ⟨g, rfl, .inside look within hM⟩
    | broken look within => exact .inr ⟨_, rfl, .broken look within⟩
    | unprintable look => exact .inr ⟨_, rfl, .unprintable look⟩

theorem opened (look : v.look modes store = .inside ws) (h : Content modes store (ws ++ vs) L f) :
    Content modes store (v :: vs) L f := by
  rcases h.of_append with ⟨M, N, within, others, rfl⟩ | ⟨g, rfl, within⟩
  · exact .inside look within others
  · exact .broken look within

/-! What is left to print after the first value was looked at. -/

theorem of_nil (h : Content modes store [] L f) : L = [] ∧ f = none := by
  cases h
  exact ⟨rfl, rfl⟩

theorem of_leaf (h : Content modes store (v :: vs) L f) (look : v.look modes store = .leaf l) :
    ∃ M, L = l :: M ∧ Content modes store vs M f := by
  cases h with
  | leaf look' others =>
    cases look.symm.trans look'
    exact ⟨_, rfl, others⟩
  | inside look' | broken look' | unprintable look' => cases look.symm.trans look'

theorem of_inside (h : Content modes store (v :: vs) L f) (look : v.look modes store = .inside ws) :
    Content modes store (ws ++ vs) L f := by
  cases h with
  | inside look' within others =>
    cases look.symm.trans look'
    exact within.append others
  | broken look' within =>
    cases look.symm.trans look'
    exact within.append_broken vs
  | leaf look' | unprintable look' => cases look.symm.trans look'

theorem of_unprintable (h : Content modes store (v :: vs) L f)
    (look : v.look modes store = .unprintable g) : L = [] ∧ f = some g := by
  cases h with
  | unprintable look' =>
    cases look.symm.trans look'
    exact ⟨rfl, rfl⟩
  | leaf look' | inside look' | broken look' => cases look.symm.trans look'

theorem unique {f' : Option Fault} (h : Content modes store vs L f)
    (h' : Content modes store vs M f') : L = M ∧ f = f' := by
  induction h generalizing M f' with
  | nil =>
    obtain ⟨rfl, rfl⟩ := h'.of_nil
    exact ⟨rfl, rfl⟩
  | leaf look others ih =>
    obtain ⟨N, rfl, others'⟩ := h'.of_leaf look
    obtain ⟨rfl, rfl⟩ := ih others'
    exact ⟨rfl, rfl⟩
  | inside look within others ih ih' =>
    cases h' with
    | inside look' within' others' =>
      cases look.symm.trans look'
      obtain ⟨rfl, -⟩ := ih within'
      obtain ⟨rfl, rfl⟩ := ih' others'
      exact ⟨rfl, rfl⟩
    | broken look' within' =>
      cases look.symm.trans look'
      cases (ih within').2
    | leaf look' | unprintable look' => cases look.symm.trans look'
  | broken look within ih =>
    cases h' with
    | inside look' within' others' =>
      cases look.symm.trans look'
      cases (ih within').2
    | broken look' within' =>
      cases look.symm.trans look'
      exact ih within'
    | leaf look' | unprintable look' => cases look.symm.trans look'
  | unprintable look =>
    obtain ⟨rfl, rfl⟩ := h'.of_unprintable look
    exact ⟨rfl, rfl⟩

end Content

/-! Printing. -/

namespace Transput

/-- Print a leaf. -/
def say (t : Transput) (l : Leaf) : Transput :=
  if l.separated then t.emitSeparated l.text else t.emit l.text

/-- Print some leaves. -/
def sayAll (t : Transput) (L : List Leaf) : Transput := L.foldl say t

theorem sayAll_append (t : Transput) (L M : List Leaf) :
    t.sayAll (L ++ M) = (t.sayAll L).sayAll M := List.foldl_append ..

/-- All that was printed so far is a text: it is kept, behind what was cleared away, if anything is kept,
and its last character is remembered. -/
structure Told (t : Transput) (cleared T : String) : Prop where
  kept : t.keeps → cleared ++ t.text = T
  silent : t.keeps = false → t.text = ""
  last : t.last = T.toList.getLast?

namespace Told

variable {t : Transput} {cleared : String}

theorem new (keeps : Bool) : Told ⟨keeps, "", none⟩ "" "" := ⟨fun _ => rfl, fun _ => rfl, rfl⟩

theorem emit (h : Told t cleared T) (text : String) : Told (t.emit text) cleared (T ++ text) := by
  refine ⟨fun hk => ?_, fun hk => ?_, ?_⟩
  · have hk : t.keeps = true := hk
    simp only [Transput.emit, hk, if_true]
    rw [← h.kept hk, String.append_assoc]
  · have hk : t.keeps = false := hk
    simpa [Transput.emit, hk] using h.silent hk
  · simp [Transput.emit, h.last, List.getLast?_append]

theorem say (h : Told t cleared T) (l : Leaf) : Told (t.say l) cleared (l.after T) := by
  simp only [Transput.say, emitSeparated, Leaf.after, h.last]
  cases l.separated with
  | false => simpa using h.emit l.text
  | true =>
    simp only [if_true, true_and]
    split
    · exact (h.emit " ").emit l.text
    · exact h.emit l.text

theorem sayAll (h : Told t cleared T) (L : List Leaf) : Told (t.sayAll L) cleared (Leaf.layOut T L) := by
  induction L generalizing t T with
  | nil => exact h
  | cons l L ih => exact ih (h.say l)

/-- Clearing the text takes nothing back. -/
theorem clear (h : Told t cleared T) : Told t.clear (cleared ++ t.text) T := by
  refine ⟨fun hk => ?_, fun _ => rfl, h.last⟩
  rw [← h.kept hk]
  simp [Transput.clear]

end Told

end Transput

/-- The machine after some leaves were printed. -/
def Machine.saying (m : Machine) (L : List Leaf) : Machine :=
  { m with transput := m.transput.sayAll L }

namespace Exec

theorem print_cons (job : Job) (v : Value) (rest : List Value) (m : Machine) :
    print job (v :: rest) m =
      match v.look job.program.modes m.store with
      | .leaf l => .ok [.print rest] (m.saying [l])
      | .inside parts => .ok [.print (parts ++ rest)] m
      | .unprintable f => .error (.fault f) m := by
  cases v with
  | name n =>
    have reads : read n m = lift (m.store.get n) m := rfl
    simp only [print, Value.look, bind, EStateM.bind, reads]
    cases m.store.get n <;> rfl
  | procedure p =>
    cases p with
    | standard p => cases p <;> rfl
    | routine => rfl
  | _ => rfl

end Exec

theorem does_leaf (look : v.look job.program.modes m.store = .leaf l) (rest : List Value) :
    Does job ([.print (v :: rest)], m) ([.print rest], m.saying [l]) := by
  refine does_single_iff.mpr ?_
  change Exec.print job (v :: rest) m = _
  rw [Exec.print_cons, look]

theorem does_inside (look : v.look job.program.modes m.store = .inside ws) (rest : List Value) :
    Does job ([.print (v :: rest)], m) ([.print (ws ++ rest)], m) := by
  refine does_single_iff.mpr ?_
  change Exec.print job (v :: rest) m = _
  rw [Exec.print_cons, look]

theorem Content.runs (h : Content job.program.modes m.store vs L none) (rest : List Value) :
    Runs job ([.print (vs ++ rest)], m) ([.print rest], m.saying L) := by
  generalize hf : (none : Option Fault) = o at h
  generalize hs : m.store = store at h
  induction h generalizing m rest with
  | nil => exact .refl
  | leaf look others ih =>
    subst hs
    exact .head (does_leaf look _) (ih rest hf rfl)
  | @inside v parts vs L M f look within others ih ih' =>
    subst hs
    have goesOn := @ih' (m.saying L) rest hf rfl
    rw [Machine.saying, Transput.sayAll_append]
    exact .head (does_inside look _) ((ih (vs ++ rest) rfl rfl).trans goesOn)
  | broken | unprintable => cases hf

/-- Where a part cannot be printed, the leaves in front of it are. -/
theorem Content.runs_broken (h : Content job.program.modes m.store vs L (some g)) (rest : List Value) :
    ∃ v ws, Runs job ([.print (vs ++ rest)], m) ([.print (v :: ws)], m.saying L) ∧
      v.look job.program.modes m.store = .unprintable g := by
  generalize hf : some g = o at h
  generalize hs : m.store = store at h
  induction h generalizing m rest with
  | nil => cases hf
  | @leaf v vs l L f look others ih =>
    subst hs
    obtain ⟨w, ws, hr, hw⟩ := ih (m := m.saying [l]) rest hf rfl
    exact ⟨w, ws, .head (does_leaf look _) hr, hw⟩
  | @inside v parts vs L M f look within others ih ih' =>
    subst hs
    obtain ⟨w, ws, hr, hw⟩ := ih' (m := m.saying L) rest hf rfl
    rw [Machine.saying, Transput.sayAll_append]
    exact ⟨w, ws, .head (does_inside look _) ((within.runs (vs ++ rest)).trans hr), hw⟩
  | broken look within ih =>
    subst hs
    obtain ⟨w, ws, hr, hw⟩ := ih _ hf rfl
    exact ⟨w, ws, .head (does_inside look _) hr, hw⟩
  | unprintable look =>
    subst hs
    cases hf
    exact ⟨_, _, .refl, look⟩

theorem Content.prints (h : Content job.program.modes m.store vs L none) :
    Runs job ([.print vs], m) ([], m.saying L) := by
  have prints : Runs job ([.print vs], m) ([.print []], m.saying L) := by
    simpa using h.runs []
  exact prints.tail (does_single_iff.mpr rfl)

/-- A print call prints the leaves in front of a part that cannot be printed, and fails there. -/
theorem Content.fails (h : Content job.program.modes m.store vs L (some g)) :
    Escapes job ([.print vs], m) (.fault g) (m.saying L) := by
  obtain ⟨v, ws, prints, look⟩ := h.runs_broken []
  rw [List.append_nil] at prints
  refine ⟨_, [], m.saying L, m.saying L, .fault g, prints, ?_, rfl⟩
  have looks : v.look job.program.modes (m.saying L).store = .unprintable g := look
  change Exec.print job (v :: ws) (m.saying L) = _
  rw [Exec.print_cons, looks]

end Algol68
