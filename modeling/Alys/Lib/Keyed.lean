import Alys.Lib.Action
import Mathlib.Data.Finmap

/-!
# Loops over the keys of a map

Each step of a loop reads and writes the slot of one key of a finite map, and the loop stops at the
first step that fails. With distinct keys every step finds the slot as it was at the start, so the
order does not matter as long as the loop reaches the end (`forEach_atKey_ok`). If a step fails, the
order decides which other steps are taken; `forEach_atKey_iff` says when that makes no difference.
-/

namespace Alys.Lib

variable {K V α ε : Type} [DecidableEq K]

/-- The map with a slot rewritten. -/
def put (m : Finmap fun _ : K => V) (k : K) : Option V → Finmap fun _ : K => V
  | none => m.erase k
  | some v => m.insert k v

/-- A step on the slot of a key: its result and the new slot, from the old one. -/
def atKey (k : K) (slot : Option V → Except ε Unit × Option V) :
    Action (Finmap fun _ : K => V) ε Unit := fun m =>
  ((slot (m.lookup k)).1, put m k (slot (m.lookup k)).2)

/-- The slot after a step that is taken only if it succeeds. -/
def tried (slot : Option V → Except ε Unit × Option V) (v : Option V) : Option V :=
  match (slot v).1 with
  | .ok _ => (slot v).2
  | .error _ => v

/-- The steps of a list that succeed. -/
def tryAll (key : α → K) (slot : α → Option V → Except ε Unit × Option V) (l : List α)
    (m : Finmap fun _ : K => V) : Finmap fun _ : K => V :=
  l.foldl (fun m a => put m (key a) (tried (slot a) (m.lookup (key a)))) m

variable {m : Finmap fun _ : K => V} {k k' : K} {v : Option V} {key : α → K}
  {slot : α → Option V → Except ε Unit × Option V} {l : List α} {a : α}

lemma lookup_put : (put m k v).lookup k' = if k' = k then v else m.lookup k' := by
  by_cases e : k' = k
  · cases v with
    | none => rw [e, put, Finmap.lookup_erase, if_pos rfl]
    | some v => rw [e, put, Finmap.lookup_insert, if_pos rfl]
  · cases v with
    | none => rw [put, Finmap.lookup_erase_ne e, if_neg e]
    | some v => rw [put, Finmap.lookup_insert_of_ne _ e, if_neg e]

lemma put_lookup : put m k (m.lookup k) = m := by
  refine Finmap.ext_lookup fun k' => ?_
  rw [lookup_put]
  split
  case isTrue e => rw [e]
  case isFalse => rfl

lemma put_eq_self_iff : put m k v = m ↔ v = m.lookup k := by
  constructor
  · intro e
    have hlookup := congrArg (Finmap.lookup k) e
    rwa [lookup_put, if_pos rfl] at hlookup
  · rintro rfl
    exact put_lookup

/-! ## Steps that succeed -/

lemma tried_of_ok {slot : Option V → Except ε Unit × Option V} (ok : (slot v).1 = .ok ()) :
    tried slot v = (slot v).2 := by
  rw [tried, ok]

lemma tried_of_ne_ok {slot : Option V → Except ε Unit × Option V} (ne : (slot v).1 ≠ .ok ()) :
    tried slot v = v := by
  unfold tried
  split
  case h_1 e => exact absurd e ne
  case h_2 => rfl

lemma lookup_tryAll_of_notMem (new : k ∉ l.map key) :
    (tryAll key slot l m).lookup k = m.lookup k := by
  induction l generalizing m with
  | nil => rfl
  | cons a l ih =>
    rw [List.map_cons, List.mem_cons, not_or] at new
    exact (ih new.2).trans (lookup_put.trans (if_neg new.1))

lemma lookup_tryAll_of_mem (distinct : (l.map key).Nodup) (mem : a ∈ l) :
    (tryAll key slot l m).lookup (key a) = tried (slot a) (m.lookup (key a)) := by
  induction l generalizing m with
  | nil => cases mem
  | cons b l ih =>
    rw [List.map_cons, List.nodup_cons] at distinct
    rcases List.mem_cons.mp mem with rfl | mem
    · exact (lookup_tryAll_of_notMem distinct.1).trans (lookup_put.trans (if_pos rfl))
    · have ne : key a ≠ key b := fun e => distinct.1 (e ▸ List.mem_map_of_mem mem)
      rw [tryAll, List.foldl_cons]
      refine (ih distinct.2 mem).trans ?_
      rw [lookup_put, if_neg ne]

/-- The order of the steps does not matter. -/
lemma tryAll_perm {order : List α} (perm : order.Perm l) (distinct : (l.map key).Nodup) :
    tryAll key slot order m = tryAll key slot l m := by
  have hkeys := perm.map key
  refine Finmap.ext_lookup fun k => ?_
  by_cases mem : k ∈ l.map key
  · obtain ⟨a, ha, rfl⟩ := List.mem_map.mp mem
    rw [lookup_tryAll_of_mem distinct ha,
      lookup_tryAll_of_mem (hkeys.nodup_iff.mpr distinct) (perm.mem_iff.mpr ha)]
  · rw [lookup_tryAll_of_notMem mem, lookup_tryAll_of_notMem (mt hkeys.mem_iff.mp mem)]

/-- Steps none of which would change its slot. -/
lemma tryAll_still (distinct : (l.map key).Nodup)
    (still : ∀ a ∈ l, (slot a (m.lookup (key a))).2 = m.lookup (key a)) :
    tryAll key slot l m = m := by
  refine Finmap.ext_lookup fun k => ?_
  by_cases mem : k ∈ l.map key
  · obtain ⟨a, ha, rfl⟩ := List.mem_map.mp mem
    rw [lookup_tryAll_of_mem distinct ha]
    by_cases ok : (slot a (m.lookup (key a))).1 = .ok ()
    · rw [tried_of_ok ok, still a ha]
    · rw [tried_of_ne_ok ok]
  · rw [lookup_tryAll_of_notMem mem]

/-! ## The loop -/

/-- If every step succeeds on the slot that it finds at the start, the loop takes them all. -/
lemma forEach_atKey_ok (distinct : (l.map key).Nodup)
    (ok : ∀ a ∈ l, (slot a (m.lookup (key a))).1 = .ok ()) :
    (Action.forEach l (fun a => atKey (key a) (slot a)) m).2 = tryAll key slot l m := by
  induction l generalizing m with
  | nil => rfl
  | cons a l ih =>
    rw [List.map_cons, List.nodup_cons] at distinct
    rw [List.forall_mem_cons] at ok
    have still : ∀ b ∈ l, (put m (key a) (slot a (m.lookup (key a))).2).lookup (key b) =
        m.lookup (key b) := by
      intro b mem
      have ne : key b ≠ key a := fun e => distinct.1 (e ▸ List.mem_map_of_mem mem)
      rw [lookup_put, if_neg ne]
    rw [Action.forEach, Action.bind_apply, tryAll, List.foldl_cons, tried_of_ok ok.1]
    simp only [atKey, ok.1]
    exact ih distinct.2 fun b mem => by rw [still b mem, ok.2 b mem]

/-- If no step would change its slot, the loop changes nothing, wherever it stops. -/
lemma forEach_atKey_still (still : ∀ a ∈ l, (slot a (m.lookup (key a))).2 = m.lookup (key a)) :
    (Action.forEach l (fun a => atKey (key a) (slot a)) m).2 = m := by
  induction l with
  | nil => rfl
  | cons a l ih =>
    rw [List.forall_mem_cons] at still
    rw [Action.forEach, Action.bind_apply]
    simp only [atKey, still.1, put_lookup]
    split
    case h_1 e =>
      cases (Prod.mk.inj e).2
      exact ih still.2
    case h_2 e => exact (Prod.mk.inj e).2.symm

/-- The loop stops at a first step that fails. -/
lemma forEach_atKey_fail (fails : (slot a (m.lookup (key a))).1 ≠ .ok ()) :
    (Action.forEach (a :: l) (fun a => atKey (key a) (slot a)) m).2 =
      put m (key a) (slot a (m.lookup (key a))).2 := by
  rw [Action.forEach, Action.bind_apply]
  split
  case h_1 e => exact absurd (congrArg Prod.fst e) fails
  case h_2 e => exact (congrArg Prod.snd e).symm

/-- The loop takes exactly the steps that succeed, in every order, if and only if all of them
succeed or none would change its slot. -/
lemma forEach_atKey_iff (distinct : (l.map key).Nodup) :
    (∀ order : List α, order.Perm l →
        (Action.forEach order (fun a => atKey (key a) (slot a)) m).2 = tryAll key slot l m) ↔
      (∀ a ∈ l, (slot a (m.lookup (key a))).1 = .ok ()) ∨
        ∀ a ∈ l, (slot a (m.lookup (key a))).2 = m.lookup (key a) := by
  constructor
  · intro h
    by_contra hnot
    rw [not_or] at hnot
    push Not at hnot
    obtain ⟨⟨a, ha, fails⟩, b, hb, moves⟩ := hnot
    -- the loop may start with any step, and stops there if it fails
    have first : ∀ c ∈ l, (slot c (m.lookup (key c))).1 ≠ .ok () →
        put m (key c) (slot c (m.lookup (key c))).2 = tryAll key slot l m := by
      intro c hc hfails
      obtain ⟨before, after, rfl⟩ := List.append_of_mem hc
      rw [← h (c :: (before ++ after)) List.perm_middle.symm, forEach_atKey_fail hfails]
    by_cases ok : (slot b (m.lookup (key b))).1 = .ok ()
    · have ne : key b ≠ key a := by
        intro e
        cases List.inj_on_of_nodup_map distinct hb ha e
        exact fails ok
      have hlookup := congrArg (Finmap.lookup (key b)) (first a ha fails)
      rw [lookup_put, if_neg ne, lookup_tryAll_of_mem distinct hb, tried_of_ok ok] at hlookup
      exact moves hlookup.symm
    · have hlookup := congrArg (Finmap.lookup (key b)) (first b hb ok)
      rw [lookup_put, if_pos rfl, lookup_tryAll_of_mem distinct hb, tried_of_ne_ok ok] at hlookup
      exact moves hlookup
  · rintro (ok | still) order perm
    · rw [← tryAll_perm perm distinct]
      exact forEach_atKey_ok ((perm.map key).nodup_iff.mpr distinct) fun a mem =>
        ok a (perm.mem_iff.mp mem)
    · rw [tryAll_still distinct still]
      exact forEach_atKey_still fun a mem => still a (perm.mem_iff.mp mem)

end Alys.Lib
