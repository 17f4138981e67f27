import Mathlib.Data.List.Forall2
import Alys.Lib.Action

/-!
# Loops over lists

A loop that appends to an accumulator and stops at the first element it rejects, a loop that maps or
checks every element, and the comparison of two selections from one list.
-/

namespace Alys.Lib

variable {α β ε : Type}

/-- A loop that for each element either appends some results or stops with the error `e`. -/
lemma foldlM_collect {f : List β → α → Except ε (List β)} {good : α → Prop} [DecidablePred good]
    {out : α → List β} {e : ε}
    (hf : ∀ acc a, f acc a = if good a then .ok (acc ++ out a) else .error e) (l : List α)
    (acc : List β) :
    l.foldlM f acc = if ∀ a ∈ l, good a then .ok (acc ++ l.flatMap out) else .error e := by
  induction l generalizing acc with
  | nil => simp [pure, Except.pure]
  | cons a l ih =>
    rw [List.foldlM_cons, hf]
    by_cases h : good a
    · simp only [h, if_true, bind, Except.bind, ih, List.forall_mem_cons, true_and,
        List.flatMap_cons, List.append_assoc]
    · simp [h, bind, Except.bind]

variable {f : α → Except ε β} {l : List α}

lemma mapM_eq_ok {g : α → β} (h : ∀ a ∈ l, f a = .ok (g a)) :
    l.mapM f = .ok (l.map g) := by
  induction l with
  | nil => rfl
  | cons a l ih =>
    rw [List.forall_mem_cons] at h
    simp [h.1, ih h.2, bind, Except.bind, pure, Except.pure]

/-- A loop that succeeds relates each element to its result. -/
lemma forall₂_of_mapM_ok {r : List β} (e : l.mapM f = .ok r) :
    List.Forall₂ (fun a b => f a = .ok b) l r := by
  induction l generalizing r with
  | nil =>
    cases e
    exact .nil
  | cons a l ih =>
    simp only [List.mapM_cons, bind_eq_ok_iff] at e
    obtain ⟨b, hb, r', hr, e⟩ := e
    cases e
    exact .cons hb (ih hr)

/-- What every successful step of a loop says about its element and its result. -/
lemma map_of_mapM_ok {γ : Type} {g : α → γ} {h : β → γ} {r : List β} (e : l.mapM f = .ok r)
    (hf : ∀ a b, f a = .ok b → h b = g a) :
    r.map h = l.map g := by
  have hr := forall₂_of_mapM_ok e
  clear e
  induction hr with
  | nil => rfl
  | cons hb _ ih => rw [List.map_cons, List.map_cons, hf _ _ hb, ih]

lemma forall_of_mapM_ok {r : List β} (e : l.mapM f = .ok r) :
    ∀ b ∈ r, ∃ a ∈ l, f a = .ok b := by
  have hr := forall₂_of_mapM_ok e
  clear e
  induction hr with
  | nil => nofun
  | cons hb _ ih =>
    refine List.forall_mem_cons.mpr ⟨⟨_, List.mem_cons_self, hb⟩, fun b mem => ?_⟩
    obtain ⟨a, mem', e⟩ := ih b mem
    exact ⟨a, List.mem_cons_of_mem _ mem', e⟩

lemma exists_mapM_ok_iff :
    (∃ r, l.mapM f = .ok r) ↔ ∀ a ∈ l, ∃ b, f a = .ok b := by
  induction l with
  | nil => exact ⟨fun _ => nofun, fun _ => ⟨[], rfl⟩⟩
  | cons a l ih =>
    simp only [List.forall_mem_cons, ← ih, List.mapM_cons, bind_eq_ok_iff]
    constructor
    · rintro ⟨_, b, hb, r, hr, _⟩
      exact ⟨⟨b, hb⟩, r, hr⟩
    · rintro ⟨⟨b, hb⟩, r, hr⟩
      exact ⟨b :: r, b, hb, r, hr, rfl⟩

lemma forM_eq_ok_iff {f : α → Except ε Unit} :
    l.forM f = .ok () ↔ ∀ a ∈ l, f a = .ok () := by
  induction l with
  | nil => simp [pure, Except.pure]
  | cons a l ih =>
    rw [List.forall_mem_cons, ← ih]
    cases h : f a <;> simp [h, bind, Except.bind]

lemma length_filterMap_le_of_imp {f g : α → Option β} (h : ∀ a ∈ l, f a = none ∨ f a = g a) :
    (l.filterMap f).length ≤ (l.filterMap g).length := by
  induction l with
  | nil => simp
  | cons a l ih =>
    rw [List.forall_mem_cons] at h
    have le := ih h.2
    rcases h.1 with hf | hf
    · cases hg : g a with
      | none => simpa [hf, hg] using le
      | some b =>
        simp only [List.filterMap_cons, hf, hg, List.length_cons]
        omega
    · cases hg : g a with
      | none => simpa [hf, hg] using le
      | some b => simpa [hf, hg] using le

/-- A selection that drops nothing of another in the end drops nothing at any element. -/
lemma filterMap_eq_of_imp {f g : α → Option β} (h : ∀ a ∈ l, f a = none ∨ f a = g a)
    (e : l.filterMap f = l.filterMap g) :
    ∀ a ∈ l, f a = g a := by
  induction l with
  | nil => nofun
  | cons a l ih =>
    rw [List.forall_mem_cons] at h ⊢
    rcases h.1 with hf | hf
    · cases hg : g a with
      | none =>
        refine ⟨hf, ih h.2 ?_⟩
        simpa [hf, hg] using e
      | some b =>
        -- the second selection would be longer by one
        have le := length_filterMap_le_of_imp h.2
        have len := congrArg List.length e
        simp only [List.filterMap_cons, hf, hg, List.length_cons] at len
        omega
    · refine ⟨hf, ih h.2 ?_⟩
      cases hg : g a with
      | none => simpa [hf, hg] using e
      | some b => simpa [hf, hg] using e

/-- What every successful step of a fold says about its element holds of all elements. -/
lemma forall_of_foldlM_eq_ok {f : β → α → Except ε β} {p : α → Prop} {b b' : β}
    (e : l.foldlM f b = .ok b') (h : ∀ b a b', f b a = .ok b' → p a) :
    ∀ a ∈ l, p a := by
  induction l generalizing b with
  | nil => simp
  | cons a l ih =>
    rw [List.foldlM_cons] at e
    obtain ⟨b₁, hf, e⟩ := bind_eq_ok_iff.mp e
    exact List.forall_mem_cons.mpr ⟨h b a b₁ hf, ih e⟩

/-- A fold whose invariant is indexed by the elements already handled. -/
lemma foldlM_invariant {f : β → α → Except ε β} {I : List α → β → Prop} {b b' : β}
    (e : l.foldlM f b = .ok b') (init : I [] b)
    (step : ∀ before a b b', I before b → f b a = .ok b' → I (before ++ [a]) b') : I l b' := by
  suffices ∀ before rest b, I before b → rest.foldlM f b = .ok b' → I (before ++ rest) b' by
    simpa using this [] l b init e
  intro before rest
  induction rest generalizing before with
  | nil =>
    intro b h e
    cases e
    simpa using h
  | cons a rest ih =>
    intro b h e
    rw [List.foldlM_cons] at e
    obtain ⟨b₁, hf, e⟩ := bind_eq_ok_iff.mp e
    simpa using ih (before ++ [a]) b₁ (step before a b b₁ h hf) e

/-- A fold all of whose steps succeed. -/
lemma exists_foldlM_ok {f : β → α → Except ε β} {I : List α → β → Prop} {b : β} (init : I [] b)
    (step : ∀ before a after b, l = before ++ a :: after → I before b →
      ∃ b', f b a = .ok b' ∧ I (before ++ [a]) b') :
    ∃ b', l.foldlM f b = .ok b' ∧ I l b' := by
  suffices ∀ before rest b, l = before ++ rest → I before b →
      ∃ b', rest.foldlM f b = .ok b' ∧ I l b' from this [] l b rfl init
  intro before rest
  induction rest generalizing before with
  | nil =>
    rintro b rfl h
    exact ⟨b, rfl, by simpa using h⟩
  | cons a rest ih =>
    intro b e h
    obtain ⟨b₁, hf, h₁⟩ := step before a rest b e h
    obtain ⟨b', hrest, h'⟩ := ih (before ++ [a]) b₁ (by rw [e]; simp) h₁
    refine ⟨b', ?_, h'⟩
    rw [List.foldlM_cons]
    exact bind_eq_ok_iff.mpr ⟨b₁, hf, hrest⟩

end Alys.Lib
