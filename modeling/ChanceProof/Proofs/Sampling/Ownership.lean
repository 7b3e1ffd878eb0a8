import ChanceProof.Proofs.Distribution.Slots
import ChanceProof.Proofs.Model.Library
import ChanceProof.Sampling.Basic

/-!
# Who owns what is read

While a distribution is sampled, every value that is still to be read has a count of its own: the
literals brought theirs along, and a bound value was given one for each of its uses. `needs` says
how many of the values left stand for a handle. Binding results hands out as many counts as they
will be read (`needs_bind`), and this is what the store does with them (`run_settleUses`).
-/

namespace ChanceProof

/-! ## Handles behind values -/

namespace Distribution

/-- The handle that a value stands for when these results are bound. -/
def handleAt? (d : Distribution) (hss : List (List Handle)) : Value → Option Handle
  | .literal h => some h
  | v => (d.slot? v).bind fun place => hss[place.1]?.bind (·[place.2]?)

/-- How many of the values stand for a handle. -/
def needs (d : Distribution) (hss : List (List Handle)) (vs : List Value) (h : Handle) : Int :=
  vs.countP (d.handleAt? hss · = some h)

/-- A walk that is bound to handles. -/
def walkTo (d : Distribution) (hss : List (List Handle)) : Walk := ⟨d, hss.map (·.map .literal)⟩

variable {d : Distribution} {hss : List (List Handle)}

theorem handleAt?_of_slot? {v : Value} {place : Nat × Nat} (h : d.slot? v = some place) :
    d.handleAt? hss v = hss[place.1]?.bind (·[place.2]?) := by
  unfold handleAt?
  split
  · cases h
  · rw [h, Option.bind_some]

theorem bound?_walkTo (d : Distribution) (hss : List (List Handle)) (place : Nat × Nat) :
    (d.walkTo hss).bound? place = (hss[place.1]?.bind (·[place.2]?)).map .literal := by
  unfold Walk.bound? walkTo
  simp only [List.getElem?_map]
  cases hss[place.1]? with
  | none => rfl
  | some hs => simp

theorem resolve_walkTo {v : Value} {h : Handle} (hv : d.handleAt? hss v = some h) :
    (d.walkTo hss).resolve v = .ok (.literal h) := by
  cases hslot : d.slot? v with
  | some place =>
      rw [handleAt?_of_slot? hslot] at hv
      refine Walk.resolve_eq_ok_iff.2 (.inr ⟨place, hslot, ?_⟩)
      rw [bound?_walkTo, hv]
      rfl
  | none =>
      cases v with
      | literal a =>
          cases hv
          rfl
      | _ =>
          simp only [handleAt?, hslot] at hv
          cases hv

theorem needs_append (d : Distribution) (hss : List (List Handle)) (vs ws : List Value)
    (h : Handle) : d.needs hss (vs ++ ws) h = d.needs hss vs h + d.needs hss ws h := by
  unfold needs
  rw [List.countP_append, Int.natCast_add]

theorem needs_nonneg (d : Distribution) (hss : List (List Handle)) (vs : List Value) (h : Handle) :
    0 ≤ d.needs hss vs h :=
  Int.natCast_nonneg _

theorem needs_pos {vs : List Value} {v : Value} {h : Handle} (hv : v ∈ vs)
    (hh : d.handleAt? hss v = some h) : 0 < d.needs hss vs h := by
  unfold needs
  rw [Int.natCast_pos]
  exact List.countP_pos_iff.2 ⟨v, hv, by simpa using hh⟩

/-- Before anything is bound, only literals stand for handles. -/
theorem needs_nil (d : Distribution) (vs : List Value) (h : Handle) :
    d.needs [] vs h = occurrences vs h := by
  unfold needs occurrences
  rw [List.count, Int.natCast_inj]
  refine List.countP_congr fun v _ => ?_
  cases v with
  | literal a => simp [handleAt?]
  | output call index => simp [handleAt?, slot?]
  | named name =>
      have hslot : d.slot? (.named name) = d.locate? name := rfl
      simp only [handleAt?, hslot]
      cases d.locate? name <;> simp
  | unknown name => simp [handleAt?, slot?]

/-! ## One more result is bound -/

/-- What reads the new results gets its handle from them. -/
theorem handleAt?_append_self {hs : List Handle} {v : Value} {k : Nat}
    (h : d.slot? v = some (hss.length, k)) : d.handleAt? (hss ++ [hs]) v = hs[k]? := by
  rw [handleAt?_of_slot? h]
  simp

/-- All else stands for what it stood for. -/
theorem handleAt?_append_of_ne {hs : List Handle} {v : Value}
    (h : ∀ k, d.slot? v ≠ some (hss.length, k)) :
    d.handleAt? (hss ++ [hs]) v = d.handleAt? hss v := by
  cases hslot : d.slot? v with
  | none =>
      unfold handleAt?
      split
      · rfl
      · rw [hslot]
        rfl
  | some place =>
      obtain ⟨i, k⟩ := place
      rw [handleAt?_of_slot? hslot, handleAt?_of_slot? hslot]
      rcases Nat.lt_trichotomy i hss.length with hlt | rfl | hgt
      · rw [List.getElem?_append_left hlt]
      · exact absurd hslot (h k)
      · have hnone : (hss ++ [hs])[i]? = none :=
          List.getElem?_eq_none (by simpa using Nat.succ_le_of_lt hgt)
        rw [hnone, List.getElem?_eq_none (Nat.le_of_lt hgt)]

theorem handleAt?_eq_none {v : Value} {k : Nat} (h : d.slot? v = some (hss.length, k)) :
    d.handleAt? hss v = none := by
  rw [handleAt?_of_slot? h, List.getElem?_eq_none (Nat.le_refl _)]
  rfl

end Distribution

/-- How many counts of a handle are handed out when each handle gets some by its place. -/
def handed : List Handle → (Nat → Nat) → Handle → Int
  | [], _, _ => 0
  | a :: hs, f, h => (if a = h then (f 0 : Int) else 0) + handed hs (fun k => f (k + 1)) h

theorem handed_zero (hs : List Handle) (h : Handle) : handed hs (fun _ => 0) h = 0 := by
  induction hs with
  | nil => rfl
  | cons a hs ih => rw [handed, ih]; simp

theorem handed_add (hs : List Handle) (f g : Nat → Nat) (h : Handle) :
    handed hs (fun k => f k + g k) h = handed hs f h + handed hs g h := by
  induction hs generalizing f g with
  | nil => rfl
  | cons a hs ih =>
      rw [handed, handed, handed, ih]
      split
      · rw [Int.natCast_add]
        omega
      · omega

theorem handed_single (hs : List Handle) (i : Nat) (h : Handle) :
    handed hs (fun k => if k = i then 1 else 0) h = if hs[i]? = some h then 1 else 0 := by
  induction hs generalizing i with
  | nil => rfl
  | cons a hs ih =>
      cases i with
      | zero =>
          have hrest : handed hs (fun k => if k + 1 = 0 then 1 else 0) h = 0 := handed_zero hs h
          rw [handed, hrest]
          simp
      | succ i =>
          have hrest : handed hs (fun k => if k + 1 = i + 1 then 1 else 0) h
              = if hs[i]? = some h then 1 else 0 := by
            rw [← ih i]
            simp only [Nat.add_right_cancel_iff]
          rw [handed, hrest]
          simp

namespace Distribution

variable {d : Distribution} {hss : List (List Handle)}

/-- Binding results hands out a count for each of their readings. -/
theorem needs_bind (d : Distribution) (hss : List (List Handle)) (hs : List Handle)
    (vs : List Value) (h : Handle) : d.needs (hss ++ [hs]) vs h = d.needs hss vs h +
      handed hs (fun k => d.reading vs (hss.length, k)) h := by
  induction vs with
  | nil => simp [needs, reading, handed_zero]
  | cons v vs ih =>
      have hcons : ∀ hss, d.needs hss (v :: vs) h
          = d.needs hss vs h + if d.handleAt? hss v = some h then 1 else 0 := by
        intro hss
        unfold needs
        rw [List.countP_cons, Int.natCast_add]
        simp
      have hreading : ∀ k, d.reading (v :: vs) (hss.length, k)
          = d.reading vs (hss.length, k) + if d.slot? v = some (hss.length, k) then 1 else 0 := by
        intro k
        unfold reading
        rw [List.countP_cons]
        simp
      simp only [hreading, handed_add]
      rw [hcons, hcons, ih]
      have hv : (if d.handleAt? (hss ++ [hs]) v = some h then 1 else 0 : Int)
          = (if d.handleAt? hss v = some h then 1 else 0) +
            handed hs (fun k => if d.slot? v = some (hss.length, k) then 1 else 0) h := by
        by_cases hslot : ∃ i, d.slot? v = some (hss.length, i)
        · obtain ⟨i, hi⟩ := hslot
          have hsingle : handed hs (fun k => if d.slot? v = some (hss.length, k) then 1 else 0) h
              = if hs[i]? = some h then 1 else 0 := by
            rw [← handed_single]
            simp only [hi, Option.some.injEq, Prod.mk.injEq, true_and, eq_comm]
          rw [hsingle, handleAt?_eq_none hi, handleAt?_append_self hi]
          simp
        · push Not at hslot
          have hnone : handed hs (fun k => if d.slot? v = some (hss.length, k) then 1 else 0) h
              = 0 := by
            simp only [hslot, if_false]
            exact handed_zero hs h
          rw [hnone, Int.add_zero, handleAt?_append_of_ne hslot]
      omega

end Distribution

/-! ## What happens to the store -/

theorem settleUses_cons {σ : Type} (M : Model σ) (h : Handle) (uses : Nat)
    (rest : List (Handle × Nat)) : M.settleUses ((h, uses) :: rest) =
      (do (if uses ≠ 1 then M.modifyCount h (uses - 1) else pure ()); M.settleUses rest) := by
  rw [Model.settleUses]
  split <;> rfl

section

variable {s : Store} (hs : s.Sound)

include hs

/-- A call gives the counts of its arguments back. -/
theorem run_release (owned : List Handle) (h : ∀ a, (owned.count a : Int) ≤ s.counts a) :
    ∃ s', (owned.forM fun a => Store.modifyCount a (-1) : Action Store PUnit).run s = (.ok ⟨⟩, s') ∧
      s.Moves s' fun a => -owned.count a := by
  induction owned generalizing s with
  | nil => exact ⟨s, rfl, (Store.Moves.refl hs).congr fun a => by simp⟩
  | cons b owned ih =>
      have hb := h b
      rw [count_cons, if_pos rfl] at hb
      obtain ⟨s₁, hr, hmoves⟩ := Store.run_modifyCount hs b (-1) (by omega) (by omega)
      obtain ⟨s₂, hrs, hmoves'⟩ := ih hmoves.sound fun a => by
        have ha := h a
        rw [count_cons] at ha
        rw [hmoves.counts]
        by_cases heq : a = b
        · rw [if_pos heq] at ha ⊢
          rw [heq] at ha ⊢
          omega
        · rw [if_neg heq] at ha ⊢
          omega
      refine ⟨s₂, ?_, (hmoves.trans hmoves').congr fun a => ?_⟩
      · rw [List.forM_eq_forM, List.forM_cons, Action.run_bind_of_ok hr]
        exact hrs
      · rw [count_cons]
        split <;> omega

/-- Bound values get one count for each of their uses, those that have none go. -/
theorem run_settleUses (functions : Library) (results : List Handle) (uses : Nat → Nat)
    (h : ∀ a, (results.count a : Int) ≤ s.counts a) :
    ∃ s', (functions.model.settleUses
        (results.zip ((List.range results.length).map uses))).run s = (.ok (), s') ∧
      s.Moves s' fun a => handed results uses a - results.count a := by
  induction results generalizing s uses with
  | nil => exact ⟨s, rfl, (Store.Moves.refl hs).congr fun a => by simp [handed]⟩
  | cons b results ih =>
      have hb := h b
      rw [count_cons, if_pos rfl] at hb
      have hone : ∃ s₁, ((if uses 0 ≠ 1 then functions.model.modifyCount b ((uses 0 : Int) - 1)
          else pure () : Action Store Unit)).run s = (.ok (), s₁) ∧
          s.Moves s₁ fun a => if a = b then (uses 0 : Int) - 1 else 0 := by
        split
        · exact Store.run_modifyCount hs b _ (by omega) (by omega)
        · next huses =>
            refine ⟨s, rfl, (Store.Moves.refl hs).congr fun a => ?_⟩
            rw [not_not.1 huses]
            simp
      obtain ⟨s₁, hr, hmoves⟩ := hone
      obtain ⟨s₂, hrs, hmoves'⟩ := ih hmoves.sound (fun k => uses (k + 1)) fun a => by
        have ha := h a
        rw [count_cons] at ha
        rw [hmoves.counts]
        by_cases heq : a = b
        · rw [if_pos heq] at ha ⊢
          rw [heq] at ha ⊢
          omega
        · rw [if_neg heq] at ha ⊢
          omega
      refine ⟨s₂, ?_, (hmoves.trans hmoves').congr fun a => ?_⟩
      · rw [List.length_cons, List.range_succ_eq_map, List.map_cons, List.map_map,
          List.zip_cons_cons]
        rw [settleUses_cons, Action.run_bind_of_ok hr]
        exact hrs
      · rw [handed, count_cons]
        simp only [eq_comm (a := b)]
        split <;> omega

end

end ChanceProof
