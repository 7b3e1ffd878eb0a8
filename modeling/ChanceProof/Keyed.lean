/-!
# Lists sorted by key

Associations from strings, kept as lists in strictly ascending order of their keys. `insert` puts an
entry at its place and replaces one of the same key, so inserting a sequence of entries leaves the
last of each key. A `Dictionary` is such a list together with the proof of its order, so two of them
with the same entries are equal.
-/

namespace ChanceProof.Keyed

variable {α : Type}

/-- Put an entry at its place, replacing the entry of the same key. -/
def insert (key : String) (value : α) : List (String × α) → List (String × α)
  | [] => [(key, value)]
  | (k, v) :: rest =>
    if key < k then (key, value) :: (k, v) :: rest
    else if key = k then (key, value) :: rest
    else (k, v) :: insert key value rest

/-- The entries in order of their keys, the last one of each key. -/
def ofList (entries : List (String × α)) : List (String × α) :=
  entries.foldl (fun sorted (k, v) => insert k v sorted) []

/-- The different names among these, in ascending order. -/
def names (names : List String) : List String := (ofList (names.map (·, ()))).map (·.1)

def Sorted (entries : List (String × α)) : Prop := entries.Pairwise (·.1 < ·.1)

theorem key_mem_insert {key : String} {value : α} {e : String × α} :
    {entries : List (String × α)} → e ∈ insert key value entries → e.1 = key ∨ e ∈ entries
  | [], h => by simp_all [insert]
  | (k, v) :: rest, h => by
    unfold insert at h
    split at h
    · rcases List.mem_cons.1 h with rfl | h
      · exact .inl rfl
      · exact .inr h
    · split at h
      · rcases List.mem_cons.1 h with rfl | h
        · exact .inl rfl
        · exact .inr (List.mem_cons_of_mem _ h)
      · rcases List.mem_cons.1 h with rfl | h
        · exact .inr List.mem_cons_self
        · rcases key_mem_insert h with h | h
          · exact .inl h
          · exact .inr (List.mem_cons_of_mem _ h)

theorem Sorted.insert {key : String} {value : α} :
    {entries : List (String × α)} → Sorted entries → Sorted (insert key value entries)
  | [], _ => by simp [Sorted, Keyed.insert]
  | (k, v) :: rest, h => by
    have hrest := List.pairwise_cons.1 h
    unfold Keyed.insert
    split
    · next hlt =>
        refine List.pairwise_cons.2 ⟨fun e he => ?_, h⟩
        rcases List.mem_cons.1 he with rfl | he
        · exact hlt
        · exact String.lt_trans hlt (hrest.1 e he)
    · next hlt =>
        split
        · next heq => exact List.pairwise_cons.2 ⟨fun e he => heq ▸ hrest.1 e he, hrest.2⟩
        · next hne =>
            refine List.pairwise_cons.2 ⟨fun e he => ?_, Sorted.insert hrest.2⟩
            rcases key_mem_insert he with h' | h'
            · simp only [h']
              rcases String.le_total key k with hle | hle
              · exact absurd (String.le_antisymm hle (String.not_lt.1 hlt)) hne
              · refine Decidable.byContradiction fun hnot => ?_
                exact hne (String.le_antisymm (String.not_lt.1 hnot) hle)
            · exact hrest.1 e h'

theorem sorted_foldl_insert (entries : List (String × α)) {start : List (String × α)}
    (h : Sorted start) :
    Sorted (entries.foldl (fun sorted (k, v) => Keyed.insert k v sorted) start) := by
  induction entries generalizing start with
  | nil => exact h
  | cons e rest ih => exact ih h.insert

theorem sorted_ofList (entries : List (String × α)) : Sorted (ofList entries) :=
  sorted_foldl_insert entries .nil

/-- An entry is found under its key, whatever stood there before. -/
theorem lookup_insert_self (key : String) (value : α) :
    (entries : List (String × α)) → (insert key value entries).lookup key = some value
  | [] => by simp [insert]
  | (k, v) :: rest => by
    unfold insert
    split
    · simp
    · split
      · simp
      · next hne =>
        have hkey : (key == k) = false := by simpa using hne
        rw [List.lookup_cons, hkey]
        exact lookup_insert_self key value rest

/-- What stands under another key stays. -/
theorem lookup_insert_of_ne {key other : String} (value : α) (h : other ≠ key) :
    (entries : List (String × α)) →
      (insert key value entries).lookup other = entries.lookup other
  | [] => by simp [insert, h]
  | (k, v) :: rest => by
    have hkey : (other == key) = false := by simpa using h
    unfold insert
    split
    · rw [List.lookup_cons, hkey]
    · split
      · next heq =>
        subst heq
        rw [List.lookup_cons, List.lookup_cons, hkey]
      · rw [List.lookup_cons, List.lookup_cons, lookup_insert_of_ne value h rest]

theorem mem_of_mem_insert {key : String} {value : α} {e : String × α}
    {entries : List (String × α)} (h : e ∈ insert key value entries) :
    e = (key, value) ∨ e ∈ entries := by
  induction entries with
  | nil => exact .inl (List.mem_singleton.1 h)
  | cons f entries ih =>
      unfold insert at h
      split at h
      · exact List.mem_cons.1 h
      · split at h
        · rcases List.mem_cons.1 h with h | h
          · exact .inl h
          · exact .inr (List.mem_cons_of_mem _ h)
        · rcases List.mem_cons.1 h with h | h
          · exact .inr (h ▸ List.mem_cons_self)
          · exact (ih h).imp_right (List.mem_cons_of_mem _)

theorem mem_of_mem_ofList {e : String × α} {entries : List (String × α)}
    (h : e ∈ ofList entries) : e ∈ entries := by
  have hfold : ∀ (entries start : List (String × α)),
      e ∈ entries.foldl (fun sorted f => insert f.1 f.2 sorted) start →
        e ∈ entries ∨ e ∈ start := by
    intro entries
    induction entries with
    | nil => exact fun _ h => .inr h
    | cons f entries ih =>
        intro start h
        rcases ih _ h with h | h
        · exact .inl (List.mem_cons_of_mem _ h)
        · rcases mem_of_mem_insert h with rfl | h
          · exact .inl List.mem_cons_self
          · exact .inr h
  exact (hfold entries [] h).resolve_right fun h => (nomatch h)

theorem mem_of_mem_names {names : List String} {name : String} (h : name ∈ Keyed.names names) :
    name ∈ names := by
  obtain ⟨e, he, rfl⟩ := List.mem_map.1 h
  obtain ⟨name, hname, rfl⟩ := List.mem_map.1 (mem_of_mem_ofList he)
  exact hname

theorem insert_of_forall_lt {key : String} {value : α} {entries : List (String × α)}
    (h : ∀ e ∈ entries, e.1 < key) : insert key value entries = entries ++ [(key, value)] := by
  induction entries with
  | nil => rfl
  | cons f entries ih =>
      have hlt := h f List.mem_cons_self
      have hne : key ≠ f.1 := fun heq => String.lt_irrefl key (heq ▸ hlt)
      rw [insert, if_neg (String.lt_asymm hlt), if_neg hne,
        ih fun e he => h e (List.mem_cons_of_mem _ he), List.cons_append]

/-- What is in order already stays as it is. -/
theorem ofList_of_sorted {entries : List (String × α)} (h : Sorted entries) :
    ofList entries = entries := by
  have hfold : ∀ (entries start : List (String × α)), Sorted (start ++ entries) →
      entries.foldl (fun sorted f => insert f.1 f.2 sorted) start = start ++ entries := by
    intro entries
    induction entries with
    | nil => exact fun start _ => (List.append_nil start).symm
    | cons f entries ih =>
        intro start h
        have hlt : ∀ e ∈ start, e.1 < f.1 := fun e he =>
          (List.pairwise_append.1 h).2.2 e he f List.mem_cons_self
        have happend : start ++ f :: entries = start ++ [f] ++ entries := by simp
        rw [List.foldl_cons, insert_of_forall_lt hlt, happend]
        exact ih _ (happend ▸ h)
  exact hfold entries [] h

/-- An entry of another key finds its place before or behind this one. -/
theorem insert_append_cons {key k : String} {value v : α} (hne : k ≠ key)
    {before after : List (String × α)} (h : Sorted (before ++ (key, value) :: after)) :
    ∃ before' after', insert k v (before ++ (key, value) :: after)
        = before' ++ (key, value) :: after' ∧
      insert k v (before ++ after) = before' ++ after' := by
  induction before with
  | nil =>
      rw [List.nil_append, List.nil_append, insert]
      split
      · next hlt =>
          refine ⟨[(k, v)], after, rfl, ?_⟩
          cases after with
          | nil => rfl
          | cons f after =>
              have hkey : key < f.1 := (List.pairwise_cons.1 h).1 f List.mem_cons_self
              rw [insert, if_pos (String.lt_trans hlt hkey)]
              rfl
      · exact ⟨[], insert k v after, by rw [List.nil_append], rfl⟩
  | cons f before ih =>
      obtain ⟨before', after', hwith, hwithout⟩ := ih (List.pairwise_cons.1 h).2
      rw [List.cons_append, List.cons_append, insert, insert]
      split
      · exact ⟨(k, v) :: f :: before, after, rfl, rfl⟩
      · split
        · exact ⟨(k, v) :: before, after, rfl, rfl⟩
        · exact ⟨f :: before', after', by rw [hwith]; rfl, by rw [hwithout]; rfl⟩

/-- An entry whose key no other entry has stands somewhere among the others. -/
theorem ofList_cons_of_fresh {key : String} (value : α) {entries : List (String × α)}
    (h : ∀ e ∈ entries, e.1 ≠ key) : ∃ before after,
      ofList ((key, value) :: entries) = before ++ (key, value) :: after ∧
      ofList entries = before ++ after := by
  have hfold : ∀ (entries before after : List (String × α)), (∀ e ∈ entries, e.1 ≠ key) →
      Sorted (before ++ (key, value) :: after) → ∃ before' after',
        entries.foldl (fun sorted f => insert f.1 f.2 sorted) (before ++ (key, value) :: after)
          = before' ++ (key, value) :: after' ∧
        entries.foldl (fun sorted f => insert f.1 f.2 sorted) (before ++ after)
          = before' ++ after' := by
    intro entries
    induction entries with
    | nil => exact fun before after _ _ => ⟨before, after, rfl, rfl⟩
    | cons e entries ih =>
        intro before after hne hsorted
        obtain ⟨before', after', hwith, hwithout⟩ :=
          insert_append_cons (v := e.2) (hne e List.mem_cons_self) hsorted
        rw [List.foldl_cons, List.foldl_cons, hwith, hwithout]
        exact ih before' after' (fun f hf => hne f (List.mem_cons_of_mem _ hf))
          (hwith ▸ hsorted.insert)
  exact hfold entries [] [] h (List.pairwise_singleton _ _)

theorem mem_insert_self (key : String) (value : α) (entries : List (String × α)) :
    (key, value) ∈ insert key value entries := by
  induction entries with
  | nil => exact List.mem_cons_self
  | cons f entries ih =>
      unfold insert
      split
      · exact List.mem_cons_self
      · split
        · exact List.mem_cons_self
        · exact List.mem_cons_of_mem _ ih

theorem mem_insert_of_ne {key : String} {value : α} {e : String × α} (hne : e.1 ≠ key)
    {entries : List (String × α)} (h : e ∈ entries) : e ∈ insert key value entries := by
  induction entries with
  | nil => exact absurd h List.not_mem_nil
  | cons f entries ih =>
      unfold insert
      split
      · exact List.mem_cons_of_mem _ h
      · rcases List.mem_cons.1 h with rfl | h
        · split
          · next heq => exact absurd heq.symm hne
          · exact List.mem_cons_self
        · split
          · exact List.mem_cons_of_mem _ h
          · exact List.mem_cons_of_mem _ (ih h)

/-- Among different keys every entry is kept. -/
theorem mem_ofList_of_mem {entries : List (String × α)} (hkeys : (entries.map (·.1)).Nodup)
    {e : String × α} (he : e ∈ entries) : e ∈ ofList entries := by
  have hfold : ∀ (entries start : List (String × α)), (entries.map (·.1)).Nodup →
      e ∈ entries ∨ e ∈ start ∧ e.1 ∉ entries.map (·.1) →
      e ∈ entries.foldl (fun sorted f => insert f.1 f.2 sorted) start := by
    intro entries
    induction entries with
    | nil => exact fun start _ h => (h.resolve_left List.not_mem_nil).1
    | cons f entries ih =>
        intro start hkeys h
        obtain ⟨hnew, hkeys⟩ := List.nodup_cons.1 hkeys
        refine ih _ hkeys ?_
        rcases h with h | ⟨hstart, hnot⟩
        · rcases List.mem_cons.1 h with rfl | h
          · exact .inr ⟨mem_insert_self _ _ _, hnew⟩
          · exact .inl h
        · obtain ⟨hne, hnot⟩ := List.ne_and_not_mem_of_not_mem_cons hnot
          exact .inr ⟨mem_insert_of_ne hne hstart, hnot⟩
  exact hfold entries [] hkeys (.inl he)

/-- Values do not matter for the order. -/
theorem map_insert {β : Type} (f : α → β) (key : String) (value : α) (entries : List (String × α)) :
    (insert key value entries).map (fun e => (e.1, f e.2))
      = insert key (f value) (entries.map fun e => (e.1, f e.2)) := by
  induction entries with
  | nil => rfl
  | cons g entries ih =>
      rw [List.map_cons, insert, insert]
      split
      · rfl
      · split
        · rfl
        · rw [List.map_cons, ih]

theorem map_ofList {β : Type} (f : α → β) (entries : List (String × α)) :
    (ofList entries).map (fun e => (e.1, f e.2)) = ofList (entries.map fun e => (e.1, f e.2)) := by
  have hfold : ∀ entries start : List (String × α),
      (entries.foldl (fun sorted e => insert e.1 e.2 sorted) start).map (fun e => (e.1, f e.2))
        = (entries.map fun e => (e.1, f e.2)).foldl (fun sorted e => insert e.1 e.2 sorted)
            (start.map fun e => (e.1, f e.2)) := by
    intro entries
    induction entries with
    | nil => exact fun _ => rfl
    | cons e entries ih =>
        intro start
        rw [List.foldl_cons, ih, map_insert, List.map_cons, List.foldl_cons]
  exact hfold entries []

theorem map_fst_ofList (entries : List (String × α)) :
    (ofList entries).map (·.1) = names (entries.map (·.1)) := by
  have hunits := congrArg (List.map (·.1)) (map_ofList (fun _ => ()) entries)
  rw [List.map_map] at hunits
  rw [names, List.map_map]
  exact hunits

end ChanceProof.Keyed

namespace ChanceProof

/-- A finite map from strings. -/
structure Dictionary (α : Type) where
  entries : List (String × α)
  sorted : Keyed.Sorted entries
deriving DecidableEq

namespace Dictionary

variable {α : Type}

def empty : Dictionary α := ⟨[], .nil⟩

instance : Inhabited (Dictionary α) := ⟨empty⟩

def insert (d : Dictionary α) (key : String) (value : α) : Dictionary α :=
  ⟨Keyed.insert key value d.entries, d.sorted.insert⟩

def ofList (entries : List (String × α)) : Dictionary α :=
  ⟨Keyed.ofList entries, Keyed.sorted_ofList entries⟩

def get? (d : Dictionary α) (key : String) : Option α := d.entries.lookup key

def keys (d : Dictionary α) : List String := d.entries.map (·.1)

theorem keys_ofList (entries : List (String × α)) :
    (ofList entries).keys = Keyed.names (entries.map (·.1)) :=
  Keyed.map_fst_ofList entries

def size (d : Dictionary α) : Nat := d.entries.length

@[ext] theorem ext {d e : Dictionary α} (h : d.entries = e.entries) : d = e := by
  cases d
  cases e
  simpa using h

@[simp] theorem get?_empty (key : String) : (empty : Dictionary α).get? key = none := rfl

@[simp] theorem get?_insert_self (d : Dictionary α) (key : String) (value : α) :
    (d.insert key value).get? key = some value :=
  Keyed.lookup_insert_self key value d.entries

theorem get?_insert_of_ne (d : Dictionary α) {key other : String} (value : α) (h : other ≠ key) :
    (d.insert key value).get? other = d.get? other :=
  Keyed.lookup_insert_of_ne value h d.entries

theorem get?_of_mem {d : Dictionary α} {e : String × α} (h : e ∈ d.entries) :
    d.get? e.1 = some e.2 := by
  obtain ⟨entries, hsorted⟩ := d
  unfold get?
  induction entries with
  | nil => exact absurd h List.not_mem_nil
  | cons e' rest ih =>
      obtain ⟨hlt, hrest⟩ := List.pairwise_cons.1 hsorted
      rw [List.lookup_cons]
      rcases List.mem_cons.1 h with rfl | h
      · simp
      · have hne : (e.1 == e'.1) = false := beq_eq_false_iff_ne.2 fun heq =>
          absurd (hlt e h) (heq ▸ String.lt_irrefl _)
        rw [hne]
        exact ih hrest h

theorem mem_of_get? {d : Dictionary α} {key : String} {value : α} (h : d.get? key = some value) :
    (key, value) ∈ d.entries := by
  unfold get? at h
  generalize d.entries = entries at h
  induction entries with
  | nil => cases h
  | cons e rest ih =>
      obtain ⟨k, v⟩ := e
      rw [List.lookup_cons] at h
      split at h
      · next heq =>
          cases h
          rw [beq_iff_eq.1 heq]
          exact List.mem_cons_self
      · exact List.mem_cons_of_mem _ (ih h)

/-- The keys ascend strictly, so none stands twice. -/
theorem keys_ascend (d : Dictionary α) : d.keys.Pairwise (· < ·) :=
  List.pairwise_map.2 d.sorted

theorem keys_nodup (d : Dictionary α) : d.keys.Nodup :=
  d.keys_ascend.imp fun {a b} (hlt : a < b) (heq : a = b) => String.lt_irrefl a (heq ▸ hlt)

end Dictionary

end ChanceProof
