import ChanceProof.Model.Store
import ChanceProof.Proofs.Model.Action

/-!
# Counting in the store

What the store does is said by two things: how the counts of handles move, and that an object which
is still there has the value it had. `Store.Moves` says both of an operation that succeeds; a store
that was sound stays so. An object is there just when its count is positive, so an owner of a count
may rely on the object.
-/

namespace ChanceProof.Store

def counts (s : Store) (h : Handle) : Int := (s.count? h).getD 0

def value? (s : Store) (h : Handle) : Option Json := (s.get? h).map (·.value)

/-- The number of the next object is new, and every object is owned. -/
def Sound (s : Store) : Prop := ∀ e ∈ s.objects, e.1 < s.next ∧ 0 < e.2.count

/-- Objects keep their values as long as they live. -/
structure Later (s s' : Store) : Prop where
  next : s.next ≤ s'.next
  value : ∀ h v, h.number < s.next → s'.value? h = some v → s.value? h = some v

/-- A sound store in which counts have moved. -/
structure Moves (s s' : Store) (delta : Handle → Int) : Prop where
  sound : s'.Sound
  later : s.Later s'
  counts : ∀ h, s'.counts h = s.counts h + delta h

theorem sound_empty : empty.Sound := fun _ h => (nomatch h)

theorem mem_of_lookup {κ α : Type} [BEq κ] [LawfulBEq κ] {n : κ} {x : α} {es : List (κ × α)}
    (h : es.lookup n = some x) : (n, x) ∈ es := by
  induction es with
  | nil => cases h
  | cons e es ih =>
      obtain ⟨k, y⟩ := e
      rw [List.lookup_cons] at h
      split at h
      · next heq =>
          cases h
          rw [beq_iff_eq.1 heq]
          exact List.mem_cons_self
      · exact List.mem_cons_of_mem _ (ih h)

theorem get?_of_counts {s : Store} {h : Handle} (hpos : 0 < s.counts h) :
    ∃ o, s.get? h = some o ∧ o.count = s.counts h := by
  unfold counts count? at hpos ⊢
  cases ho : s.get? h with
  | none =>
      rw [ho] at hpos
      exact absurd hpos (by decide)
  | some o => exact ⟨o, rfl, rfl⟩

theorem counts_of_get? {s : Store} {h : Handle} {o : Stored} (ho : s.get? h = some o) :
    s.counts h = o.count := by
  rw [counts, count?, ho]
  rfl

section

variable {s : Store} (hs : s.Sound)

include hs

theorem Sound.of_get? {h : Handle} {o : Stored} (ho : s.get? h = some o) :
    h.number < s.next ∧ 0 < o.count :=
  hs _ (mem_of_lookup ho)

theorem Sound.counts_nonneg (h : Handle) : 0 ≤ s.counts h := by
  unfold counts count?
  cases ho : s.get? h with
  | none => exact Int.le_refl 0
  | some o => exact Int.le_of_lt (hs.of_get? ho).2

theorem Sound.counts_pos_of_value? {h : Handle} {v : Json} (hv : s.value? h = some v) :
    0 < s.counts h ∧ h.number < s.next := by
  obtain ⟨o, ho, -⟩ := Option.map_eq_some_iff.1 hv
  obtain ⟨hlt, hpos⟩ := hs.of_get? ho
  unfold counts count?
  rw [ho]
  exact ⟨hpos, hlt⟩

theorem Sound.counts_new : s.counts ⟨s.next⟩ = 0 := by
  unfold counts count?
  cases ho : s.get? ⟨s.next⟩ with
  | none => rfl
  | some o => exact absurd (hs.of_get? ho).1 (Nat.lt_irrefl _)

end

/-- A handle has no count just when there is no object. -/
theorem Sound.counts_eq_zero_iff {s : Store} (hs : s.Sound) (h : Handle) :
    s.counts h = 0 ↔ s.get? h = none := by
  constructor
  · intro hzero
    cases ho : s.get? h with
    | none => rfl
    | some o =>
        have hpos := (hs.of_get? ho).2
        rw [counts, count?, ho] at hzero
        exact absurd hzero (Int.ne_of_gt hpos)
  · intro hnone
    rw [counts, count?, hnone]
    rfl

theorem Later.refl (s : Store) : s.Later s := ⟨Nat.le_refl _, fun _ _ _ h => h⟩

theorem Later.trans {s s' s'' : Store} (h : s.Later s') (h' : s'.Later s'') : s.Later s'' :=
  ⟨Nat.le_trans h.next h'.next, fun a v ha hv =>
    h.value a v ha (h'.value a v (Nat.lt_of_lt_of_le ha h.next) hv)⟩

/-- An object that is owned to the end has its value. -/
theorem Later.value?_of_counts {s s' : Store} (h : s.Later s') (hs : s.Sound)
    {a : Handle} {v : Json} (hv : s.value? a = some v) (hpos : 0 < s'.counts a) :
    s'.value? a = some v := by
  obtain ⟨o, ho, -⟩ := get?_of_counts hpos
  have hv' : s'.value? a = some o.value := by rw [value?, ho, Option.map_some]
  have heq := h.value a _ (hs.counts_pos_of_value? hv).2 hv'
  rw [hv', ← heq, hv]

/-- An object that is there before and after has one value. -/
theorem Later.value_eq {s s' : Store} (h : s.Later s') (hs : s.Sound) {a : Handle} {o o' : Stored}
    (ho : s.get? a = some o) (ho' : s'.get? a = some o') : o'.value = o.value := by
  have hv' : s'.value? a = some o'.value := by rw [value?, ho', Option.map_some]
  have hv := h.value a o'.value (hs.of_get? ho).1 hv'
  rw [value?, ho, Option.map_some] at hv
  exact (Option.some.inj hv).symm

/-- What is gone stays gone. -/
theorem Later.get?_eq_none {s s' : Store} (h : s.Later s') {a : Handle} (hlt : a.number < s.next)
    (ha : s.get? a = none) : s'.get? a = none := by
  cases ho : s'.get? a with
  | none => rfl
  | some o =>
      have hv := h.value a o.value hlt (by rw [value?, ho, Option.map_some])
      rw [value?, ha] at hv
      cases hv

theorem Moves.refl {s : Store} (hs : s.Sound) : s.Moves s fun _ => 0 :=
  ⟨hs, .refl s, fun _ => (Int.add_zero _).symm⟩

theorem Moves.trans {s s' s'' : Store} {f g : Handle → Int} (h : s.Moves s' f)
    (h' : s'.Moves s'' g) : s.Moves s'' fun a => f a + g a :=
  ⟨h'.sound, h.later.trans h'.later, fun a => by
    rw [h'.counts, h.counts, Int.add_assoc]⟩

theorem Moves.congr {s s' : Store} {f g : Handle → Int} (h : s.Moves s' f)
    (heq : ∀ a, f a = g a) : s.Moves s' g :=
  ⟨h.sound, h.later, fun a => (h.counts a).trans (by rw [heq])⟩

/-- What was there has its value and its new count, or is gone if that is zero. -/
theorem Moves.get?_of_some {s s' : Store} {delta : Handle → Int} (h : s.Moves s' delta)
    (hs : s.Sound) {a : Handle} {o : Stored} (ho : s.get? a = some o) :
    s'.get? a = if o.count + delta a = 0 then none else some ⟨o.value, o.count + delta a⟩ := by
  have hcounts : s'.counts a = o.count + delta a := by rw [h.counts, counts_of_get? ho]
  split
  · next hzero => exact (h.sound.counts_eq_zero_iff a).1 (hcounts.trans hzero)
  · next hne =>
      have hnonneg := h.sound.counts_nonneg a
      obtain ⟨o', ho', hcount'⟩ := get?_of_counts (s := s') (h := a) (by omega)
      have hvalue : o'.value = o.value := h.later.value_eq hs ho ho'
      rw [ho', Option.some.injEq, Stored.mk.injEq]
      exact ⟨hvalue, hcount'.trans hcounts⟩

/-- Where the count has not moved, everything is as it was. -/
theorem Moves.get?_eq {s s' : Store} {delta : Handle → Int} (h : s.Moves s' delta) (hs : s.Sound)
    {a : Handle} (ha : delta a = 0) : s'.get? a = s.get? a := by
  cases ho : s.get? a with
  | none =>
      rw [← h.sound.counts_eq_zero_iff, h.counts, ha, Int.add_zero]
      exact (hs.counts_eq_zero_iff a).2 ho
  | some o =>
      have hpos := (hs.of_get? ho).2
      rw [h.get?_of_some hs ho, ha, if_neg (by omega), Int.add_zero]

/-! ## What the operations do -/

theorem counts_erase_self (s : Store) (h : Handle) : (s.erase h).counts h = 0 := by
  rw [counts, count?, get?_erase_self]
  rfl

theorem counts_erase_of_ne (s : Store) {h other : Handle} (hne : other ≠ h) :
    (s.erase h).counts other = s.counts other := by
  rw [counts, count?, get?_erase_of_ne s hne, counts, count?]

theorem counts_setCount_self {s : Store} {h : Handle} {o : Stored} (ho : s.get? h = some o)
    (count : Int) : (s.setCount h count).counts h = count := by
  rw [counts, count?, get?_setCount_self, ho]
  rfl

theorem counts_setCount_of_ne (s : Store) {h other : Handle} (count : Int) (hne : other ≠ h) :
    (s.setCount h count).counts other = s.counts other := by
  rw [counts, count?, get?_setCount_of_ne s count hne, counts, count?]

theorem value?_erase (s : Store) {h a : Handle} {v : Json} (hv : (s.erase h).value? a = some v) :
    s.value? a = some v := by
  by_cases heq : a = h
  · rw [heq, value?, get?_erase_self] at hv
    cases hv
  · rwa [value?, get?_erase_of_ne s heq, ← value?] at hv

theorem value?_setCount (s : Store) (h a : Handle) (count : Int) :
    (s.setCount h count).value? a = s.value? a := by
  by_cases heq : a = h
  · rw [heq, value?, value?, get?_setCount_self, Option.map_map]
    rfl
  · rw [value?, value?, get?_setCount_of_ne s count heq]

theorem run_object {s : Store} {h : Handle} {o : Stored} (ho : s.get? h = some o) :
    (object h).run s = (.ok o, s) := by
  unfold object
  rw [Action.run_bind_of_ok (Action.run_get s), ho]
  rfl

theorem run_object_none {s : Store} {h : Handle} (ho : s.get? h = none) :
    (object h).run s = (.error (.unknownReference h.number), s) := by
  unfold object
  rw [Action.run_bind_of_ok (Action.run_get s), ho]
  rfl

theorem run_object_ok {s s' : Store} {h : Handle} {o : Stored} :
    (object h).run s = (.ok o, s') ↔ s.get? h = some o ∧ s' = s := by
  cases ho : s.get? h with
  | none =>
      rw [run_object_none ho]
      exact ⟨fun h => (nomatch congrArg Prod.fst h), fun h => (nomatch h.1)⟩
  | some o' =>
      rw [run_object ho, Prod.mk.injEq, Except.ok.injEq, Option.some.injEq, eq_comm (a := s)]

/-- A new object has one owner. -/
theorem run_add {s : Store} (hs : s.Sound) (v : Json) :
    ∃ h s', (add v).run s = (.ok h, s') ∧ s'.value? h = some v ∧
      s.Moves s' (fun a => if a = h then 1 else 0) := by
  refine ⟨⟨s.next⟩, (s.intern v).2, rfl, ?_, fun e he => ?_, ⟨Nat.le_succ _, fun a w ha hw => ?_⟩,
    fun a => ?_⟩
  · rw [value?, show (⟨s.next⟩ : Handle) = (s.intern v).1 from rfl, get?_intern_self]
    rfl
  · rcases List.mem_cons.1 he with rfl | he
    · exact ⟨Nat.lt_succ_self _, Int.one_pos⟩
    · exact ⟨Nat.lt_succ_of_lt (hs e he).1, (hs e he).2⟩
  · rwa [value?, get?_intern_of_ne s v (Nat.ne_of_lt ha), ← value?] at hw
  · split
    · next heq =>
        rw [heq, hs.counts_new]
        rw [counts, count?, show (⟨s.next⟩ : Handle) = (s.intern v).1 from rfl, get?_intern_self]
        rfl
    · next hne =>
        have hnumber : a.number ≠ s.next := fun h => hne (by cases a; simp_all)
        rw [counts, count?, get?_intern_of_ne s v hnumber, counts, count?, Int.add_zero]

/-- All that a change of a count can do: it fails at a dead handle and below zero, an object whose
count reaches zero goes, and any other object gets its new count. -/
theorem modifyCount_cases (s : Store) (h : Handle) (delta : Int) :
    (s.get? h = none ∧ (modifyCount h delta).run s = (.error (.unknownReference h.number), s)) ∨
    ∃ o, s.get? h = some o ∧
      ((o.count + delta < 0 ∧ (modifyCount h delta).run s
          = (.error (.invalidReferenceCount h.number (o.count + delta)), s)) ∨
        (o.count + delta = 0 ∧ (modifyCount h delta).run s = (.ok (), s.erase h)) ∨
        (0 < o.count + delta ∧
          (modifyCount h delta).run s = (.ok (), s.setCount h (o.count + delta)))) := by
  unfold modifyCount
  cases ho : s.get? h with
  | none => exact .inl ⟨rfl, Action.run_bind_of_error (run_object_none ho)⟩
  | some o =>
      refine .inr ⟨o, rfl, ?_⟩
      rw [Action.run_bind_of_ok (run_object ho)]
      rcases Int.lt_trichotomy (o.count + delta) 0 with hneg | hzero | hpos
      · exact .inl ⟨hneg, by simp only; rw [if_pos hneg]; rfl⟩
      · exact .inr (.inl ⟨hzero, by simp only; rw [if_neg (by omega), if_pos hzero]; rfl⟩)
      · exact .inr (.inr ⟨hpos, by simp only; rw [if_neg (by omega), if_neg (by omega)]; rfl⟩)

/-- No number is given away for a count. -/
theorem next_modifyCount (s : Store) (h : Handle) (delta : Int) :
    ((modifyCount h delta).run s).2.next = s.next := by
  rcases modifyCount_cases s h delta with
    ⟨-, hr⟩ | ⟨o, -, ⟨-, hr⟩ | ⟨-, hr⟩ | ⟨-, hr⟩⟩ <;> rw [hr] <;> rfl

section

variable {s : Store} (hs : s.Sound)

include hs

theorem moves_erase {h : Handle} {o : Stored} (ho : s.get? h = some o) :
    s.Moves (s.erase h) fun a => if a = h then -o.count else 0 := by
  refine ⟨fun e he => hs e (List.mem_filter.1 he).1, ⟨Nat.le_refl _, fun _ _ _ => value?_erase s⟩,
    fun a => ?_⟩
  split
  · next heq =>
      rw [heq, counts_erase_self, counts, count?, ho]
      exact (Int.add_right_neg _).symm
  · next hne => rw [counts_erase_of_ne s hne, Int.add_zero]

theorem moves_setCount {h : Handle} {o : Stored} (ho : s.get? h = some o) {count : Int}
    (hpos : 0 < count) :
    s.Moves (s.setCount h count) fun a => if a = h then count - o.count else 0 := by
  refine ⟨fun e he => ?_, ⟨Nat.le_refl _, fun a v _ hv => by rwa [value?_setCount] at hv⟩,
    fun a => ?_⟩
  · obtain ⟨⟨n, o'⟩, he', rfl⟩ := List.mem_map.1 he
    obtain ⟨hlt, hcnt⟩ := hs _ he'
    by_cases hn : n = h.number
    · simp only [if_pos hn]
      exact ⟨hlt, hpos⟩
    · simp only [if_neg hn]
      exact ⟨hlt, hcnt⟩
  · split
    · next heq =>
        rw [heq, counts_setCount_self ho, counts, count?, ho, Option.map_some, Option.getD_some]
        omega
    · next hne => rw [counts_setCount_of_ne s _ hne, Int.add_zero]

/-- A change of a count that succeeds changes just that count. -/
theorem moves_of_modifyCount {h : Handle} {delta : Int} {s' : Store}
    (hr : (modifyCount h delta).run s = (.ok (), s')) :
    s.Moves s' fun a => if a = h then delta else 0 := by
  rcases modifyCount_cases s h delta with
    ⟨-, hr'⟩ | ⟨o, ho, ⟨-, hr'⟩ | ⟨hzero, hr'⟩ | ⟨hpos, hr'⟩⟩ <;> cases hr'.symm.trans hr
  · exact (moves_erase hs ho).congr fun a => by split <;> omega
  · exact (moves_setCount hs ho hpos).congr fun a => by split <;> omega

/-- A count that is owned may be changed as long as it does not fall below zero. -/
theorem run_modifyCount (h : Handle) (delta : Int) (hpos : 0 < s.counts h)
    (hge : 0 ≤ s.counts h + delta) : ∃ s', (modifyCount h delta).run s = (.ok (), s') ∧
      s.Moves s' (fun a => if a = h then delta else 0) := by
  obtain ⟨o, ho, hcount⟩ := get?_of_counts hpos
  rcases modifyCount_cases s h delta with ⟨hnone, -⟩ | ⟨o', ho', hcases⟩
  · cases hnone.symm.trans ho
  · cases ho'.symm.trans ho
    rcases hcases with ⟨hneg, -⟩ | ⟨-, hr⟩ | ⟨-, hr⟩
    · omega
    · exact ⟨_, hr, moves_of_modifyCount hs hr⟩
    · exact ⟨_, hr, moves_of_modifyCount hs hr⟩

/-- A change of a count that fails changes nothing, so the store stays sound in any case. -/
theorem Sound.modifyCount (h : Handle) (delta : Int) :
    ((Store.modifyCount h delta).run s).2.Sound := by
  rcases modifyCount_cases s h delta with
    ⟨-, hr⟩ | ⟨o, ho, ⟨-, hr⟩ | ⟨-, hr⟩ | ⟨hpos, hr⟩⟩ <;> rw [hr]
  · exact hs
  · exact hs
  · exact (moves_erase hs ho).sound
  · exact (moves_setCount hs ho hpos).sound

end

end ChanceProof.Store
