import Mathlib.Data.List.AList
import Mathlib.Data.List.Basic
import Mathlib.Data.List.Induction

/-!
# Lists of records under a key

A record that is put into a list takes the place of the first one of its key, or goes to the
end.  Putting several records one after the other leaves, at every old place, the last of them
that has the key of the place (`putAll_cons`), so the list stays as it is exactly when it already
holds the last record of every key that is put (`putAll_eq_self_iff`).  Of the records of a list
those that come first under their key have all its keys, each of them once (`mem_keys_firsts`,
`nodup_keys_firsts`).
-/

set_option autoImplicit false

namespace Opencodepp.Library.Keyed

variable {α κ : Type} [DecidableEq κ] (key : α → κ)

/-- Put a record in the place of the first one of its key, or at the end. -/
def put (record : α) : List α → List α
  | [] => [record]
  | old :: rest => if key old = key record then record :: rest else old :: put record rest

/-- Put records one after the other. -/
def putAll (records entries : List α) : List α :=
  records.foldl (fun entries record => put key record entries) entries

/-- The last record of a key. -/
def lastOf (records : List α) (k : κ) : Option α := records.reverse.find? (key · = k)

theorem lastOf_concat (records : List α) (last : α) (k : κ) :
    lastOf key (records ++ [last]) k =
      if key last = k then some last else lastOf key records k := by
  unfold lastOf
  rw [List.reverse_concat]
  by_cases same : key last = k
  · simp [same]
  · simp [same]

theorem putAll_append (first second entries : List α) :
    putAll key (first ++ second) entries = putAll key second (putAll key first entries) :=
  List.foldl_append

theorem put_ne_nil (record : α) (entries : List α) : put key record entries ≠ [] := by
  cases entries with
  | nil => simp [put]
  | cons old rest =>
      unfold put
      split <;> simp

theorem putAll_nil_iff (records : List α) : putAll key records [] = [] ↔ records = [] := by
  refine ⟨fun nothing => ?_, fun nothing => by rw [nothing]; rfl⟩
  cases records using List.reverseRecOn with
  | nil => rfl
  | append_singleton earlier last =>
      rw [putAll_append] at nothing
      exact absurd nothing (put_ne_nil key last _)

/-- A key that is put has a last record. -/
theorem lastOf_isSome {records : List α} {record : α} (member : record ∈ records) :
    (lastOf key records (key record)).isSome := by
  unfold lastOf
  rw [List.find?_isSome]
  exact ⟨record, List.mem_reverse.mpr member, by simp⟩

/-- What was put under other keys does not count. -/
theorem lastOf_filter (records : List α) {k other : κ} (different : other ≠ k) :
    lastOf key (records.filter (key · ≠ k)) other = lastOf key records other := by
  unfold lastOf
  rw [← List.filter_reverse, List.find?_filter]
  congr 1
  funext record
  by_cases same : key record = other
  · simp [same, different]
  · simp [same]

/-- **The last record of a place's key ends up there**, and the others go past it. -/
theorem putAll_cons (records : List α) (old : α) (rest : List α) :
    putAll key records (old :: rest) =
      (lastOf key records (key old)).getD old ::
        putAll key (records.filter (key · ≠ key old)) rest := by
  induction records using List.reverseRecOn with
  | nil => rfl
  | append_singleton earlier last inductionHypothesis =>
      have keyed : key ((lastOf key earlier (key old)).getD old) = key old := by
        cases found : lastOf key earlier (key old) with
        | none => rfl
        | some record => simpa using List.find?_some found
      rw [putAll_append, inductionHypothesis, lastOf_concat, List.filter_append]
      show put key last _ = _
      by_cases same : key last = key old
      · rw [put, if_pos (keyed.trans same.symm), if_pos same]
        simp [same]
      · rw [put, if_neg (fun h => same (h.symm.trans keyed)), if_neg same, putAll_append]
        simp [same, putAll]

/-- **Putting records changes nothing exactly when the last record of every key that is put is
already there.** -/
theorem putAll_eq_self_iff (entries records : List α) :
    putAll key records entries = entries ↔
      ∀ record ∈ records,
        entries.find? (key · = key record) = lastOf key records (key record) := by
  induction entries generalizing records with
  | nil =>
      rw [putAll_nil_iff]
      refine ⟨fun nothing => by simp [nothing], fun held => ?_⟩
      refine List.eq_nil_iff_forall_not_mem.mpr fun record member => ?_
      have present := lastOf_isSome key member
      rw [← held record member] at present
      cases present
  | cons old rest inductionHypothesis =>
      rw [putAll_cons, List.cons.injEq, inductionHypothesis]
      constructor
      · rintro ⟨here, later⟩ record member
        by_cases same : key old = key record
        · have present := lastOf_isSome key member
          rw [← same] at present ⊢
          obtain ⟨last, found⟩ := Option.isSome_iff_exists.mp present
          rw [found] at here ⊢
          simp [show last = old from here]
        · have kept : record ∈ records.filter (key · ≠ key old) :=
            List.mem_filter.mpr ⟨member, by simpa using fun h => same h.symm⟩
          rw [List.find?_cons_of_neg (by simpa using same), later record kept]
          exact lastOf_filter key records fun h => same h.symm
      · intro held
        refine ⟨?_, fun record kept => ?_⟩
        · cases found : lastOf key records (key old) with
          | none => rfl
          | some last =>
              have keyed : key last = key old := by simpa using List.find?_some found
              have member : last ∈ records := by simpa using List.mem_of_find?_eq_some found
              have same := held last member
              rw [keyed, found] at same
              simpa using same.symm
        · obtain ⟨member, other⟩ := List.mem_filter.mp kept
          have different : key record ≠ key old := by simpa using other
          rw [lastOf_filter key records different, ← held record member,
            List.find?_cons_of_neg (by simpa using different.symm)]

/-! ## One record of each key -/

theorem mem_put {record x : α} {entries : List α} (member : x ∈ put key record entries) :
    x = record ∨ x ∈ entries := by
  induction entries with
  | nil => exact .inl (List.mem_singleton.mp member)
  | cons old rest inductionHypothesis =>
      unfold put at member
      split at member
      · rcases List.mem_cons.mp member with here | later
        · exact .inl here
        · exact .inr (List.mem_cons_of_mem _ later)
      · rcases List.mem_cons.mp member with here | later
        · exact .inr (here ▸ List.mem_cons_self)
        · exact (inductionHypothesis later).imp_right (List.mem_cons_of_mem _)

theorem mem_put_self (record : α) (entries : List α) : record ∈ put key record entries := by
  induction entries with
  | nil => exact List.mem_cons_self
  | cons old rest inductionHypothesis =>
      unfold put
      split
      · exact List.mem_cons_self
      · exact List.mem_cons_of_mem _ inductionHypothesis

/-- A record under a new key goes to the end. -/
theorem put_of_absent {record : α} {entries : List α}
    (absent : ∀ old ∈ entries, key old ≠ key record) :
    put key record entries = entries ++ [record] := by
  induction entries with
  | nil => rfl
  | cons old rest inductionHypothesis =>
      obtain ⟨other, others⟩ := List.forall_mem_cons.mp absent
      rw [put, if_neg other, inductionHypothesis others]
      rfl

/-- The records of the other keys stay. -/
theorem filter_put_of_ne (record : α) (entries : List α) (p : α → Bool)
    (neither : ∀ x, key x = key record → p x = false) :
    (put key record entries).filter p = entries.filter p := by
  induction entries with
  | nil => simp [put, neither record rfl]
  | cons old rest inductionHypothesis =>
      unfold put
      split
      · rename_i same
        rw [List.filter_cons, List.filter_cons, neither record rfl, neither old same]
        rfl
      · rw [List.filter_cons, List.filter_cons, inductionHypothesis]

/-- A record that was put is found under its key, and the others as before. -/
theorem find?_put (record : α) (entries : List α) (k : κ) :
    (put key record entries).find? (key · = k) =
      if key record = k then some record else entries.find? (key · = k) := by
  induction entries with
  | nil =>
      unfold put
      split
      · exact List.find?_cons_of_pos (by simpa)
      · exact List.find?_cons_of_neg (by simpa)
  | cons old rest inductionHypothesis =>
      unfold put
      by_cases same : key old = key record
      · rw [if_pos same]
        by_cases this : key record = k
        · rw [if_pos this, List.find?_cons_of_pos (by simpa)]
        · rw [if_neg this, List.find?_cons_of_neg (by simpa),
            List.find?_cons_of_neg (by simpa [same])]
      · rw [if_neg same]
        by_cases here : key old = k
        · rw [List.find?_cons_of_pos (by simpa), List.find?_cons_of_pos (by simpa),
            if_neg fun this => same (here.trans this.symm)]
        · rw [List.find?_cons_of_neg (by simpa), List.find?_cons_of_neg (by simpa),
            inductionHypothesis]

/-- Of several records that are put, the last of its key is found. -/
theorem find?_putAll (records entries : List α) (k : κ) :
    (putAll key records entries).find? (key · = k) =
      (lastOf key records k).or (entries.find? (key · = k)) := by
  induction records using List.reverseRecOn with
  | nil => rfl
  | append_singleton earlier last inductionHypothesis =>
      rw [putAll_append, lastOf_concat]
      show (put key last (putAll key earlier entries)).find? _ = _
      rw [find?_put, inductionHypothesis]
      split <;> rfl

/-- To put a record among those of a kind. -/
theorem filter_put_of_pos (record : α) (entries : List α) (p : α → Bool)
    (all : ∀ x, key x = key record → p x = true) :
    (put key record entries).filter p = put key record (entries.filter p) := by
  induction entries with
  | nil => simp [put, all record rfl]
  | cons old rest inductionHypothesis =>
      by_cases same : key old = key record
      · rw [put, if_pos same, List.filter_cons_of_pos (all record rfl),
          List.filter_cons_of_pos (all old same), put, if_pos same]
      · rw [put, if_neg same]
        cases kind : p old with
        | false =>
            rw [List.filter_cons_of_neg (by simp [kind]), List.filter_cons_of_neg (by simp [kind]),
              inductionHypothesis]
        | true =>
            rw [List.filter_cons_of_pos kind, List.filter_cons_of_pos kind, put, if_neg same,
              inductionHypothesis]

variable {key}

/-- Among records with distinct keys there is one of the key of each. -/
theorem filter_key_of_mem {record : α} {entries : List α} (distinct : (entries.map key).Nodup)
    (member : record ∈ entries) : entries.filter (key · = key record) = [record] := by
  induction entries with
  | nil => exact absurd member List.not_mem_nil
  | cons old rest inductionHypothesis =>
      obtain ⟨absent, others⟩ := List.nodup_cons.mp distinct
      rcases List.mem_cons.mp member with rfl | later
      · rw [List.filter_cons_of_pos (by simp), List.filter_eq_nil_iff.mpr]
        intro x inside same
        exact absent (of_decide_eq_true same ▸ List.mem_map_of_mem inside)
      · have other : key old ≠ key record := fun same =>
          absent (same ▸ List.mem_map_of_mem later)
        rw [List.filter_cons_of_neg (by simpa using other), inductionHypothesis others later]

/-- A record that is there is put without effect. -/
theorem put_of_mem {record : α} {entries : List α} (distinct : (entries.map key).Nodup)
    (member : record ∈ entries) : put key record entries = entries := by
  induction entries with
  | nil => exact absurd member List.not_mem_nil
  | cons old rest inductionHypothesis =>
      obtain ⟨absent, others⟩ := List.nodup_cons.mp distinct
      rcases List.mem_cons.mp member with rfl | later
      · rw [put, if_pos rfl]
      · have other : key old ≠ key record := fun same =>
          absent (same ▸ List.mem_map_of_mem later)
        rw [put, if_neg other, inductionHypothesis others later]

/-- A record takes the place of the one of its key. -/
theorem put_of_split {record old : α} {before after : List α}
    (distinct : ((before ++ old :: after).map key).Nodup) (same : key record = key old) :
    put key record (before ++ old :: after) = before ++ record :: after := by
  induction before with
  | nil => exact if_pos same.symm
  | cons x rest inductionHypothesis =>
      obtain ⟨absent, distinct⟩ := List.nodup_cons.mp distinct
      have other : key x ≠ key record := fun keys =>
        absent (by rw [keys, same]; simp)
      rw [List.cons_append, put, if_neg other, inductionHypothesis distinct]
      rfl

/-- A record is put without effect only where it is there. -/
theorem put_eq_self_iff {record : α} {entries : List α} (distinct : (entries.map key).Nodup) :
    put key record entries = entries ↔ record ∈ entries :=
  ⟨fun same => same ▸ mem_put_self key record entries, put_of_mem distinct⟩

theorem keys_put (record : α) (entries : List α) :
    (put key record entries).map key =
      if key record ∈ entries.map key then entries.map key
      else entries.map key ++ [key record] := by
  induction entries with
  | nil => simp [put]
  | cons old rest inductionHypothesis =>
      unfold put
      by_cases same : key old = key record
      · rw [if_pos same, if_pos (by simp [same]), List.map_cons, List.map_cons, same]
      · rw [if_neg same, List.map_cons, inductionHypothesis]
        by_cases there : key record ∈ rest.map key
        · rw [if_pos there, if_pos (by simp [there])]
          rfl
        · rw [if_neg there, if_neg (by simp [Ne.symm same, there])]
          rfl

/-- A record takes a place only under a new key. -/
theorem length_put (record : α) (entries : List α) :
    (put key record entries).length =
      if key record ∈ entries.map key then entries.length else entries.length + 1 := by
  calc (put key record entries).length
      = ((put key record entries).map key).length := (List.length_map key).symm
    _ = _ := by
        rw [keys_put]
        split <;> simp

theorem nodup_put (record : α) {entries : List α} (distinct : (entries.map key).Nodup) :
    ((put key record entries).map key).Nodup := by
  rw [keys_put]
  split
  · exact distinct
  · rename_i absent
    exact List.nodup_append.mpr ⟨distinct, List.pairwise_singleton _ _, fun k member k' last same =>
      absent (List.mem_singleton.mp last ▸ same ▸ member)⟩

/-- A record that is put is the one of its key. -/
theorem filter_key_put (record : α) {entries : List α} (distinct : (entries.map key).Nodup) :
    (put key record entries).filter (key · = key record) = [record] :=
  filter_key_of_mem (nodup_put record distinct) (mem_put_self key record entries)

/-- Among records with distinct keys the first of a key is the only one. -/
theorem eraseP_eq_filter {entries : List α} (distinct : (entries.map key).Nodup) (k : κ) :
    entries.eraseP (key · = k) = entries.filter (key · ≠ k) := by
  induction entries with
  | nil => rfl
  | cons old rest inductionHypothesis =>
      obtain ⟨absent, others⟩ := List.nodup_cons.mp distinct
      by_cases same : key old = k
      · rw [List.eraseP_cons_of_pos (by simpa), List.filter_cons_of_neg (by simpa), eq_comm,
          List.filter_eq_self]
        intro x inside
        have other : key x ≠ k := fun keys =>
          absent (same.trans keys.symm ▸ List.mem_map_of_mem inside)
        simpa using other
      · rw [List.eraseP_cons_of_neg (by simpa), List.filter_cons_of_pos (by simpa),
          inductionHypothesis others]

/-! ## Records behind an index -/

/-- To change the record behind one place of an index is to put it. -/
theorem filterMap_put {ι : Type} {g g' : ι → Option α} {places : List ι} {place : ι} {record : α}
    (held : ∀ i ∈ places, ∃ x, g i = some x ∧ (i = place ↔ key x = key record))
    (here : g' place = some record) (others : ∀ i, i ≠ place → g' i = g i)
    (distinct : places.Nodup) (member : place ∈ places) :
    places.filterMap g' = put key record (places.filterMap g) := by
  induction places with
  | nil => exact absurd member List.not_mem_nil
  | cons i rest inductionHypothesis =>
      obtain ⟨absent, distinct⟩ := List.nodup_cons.mp distinct
      obtain ⟨⟨x, behind, same⟩, held⟩ := List.forall_mem_cons.mp held
      rw [List.filterMap_cons_some behind]
      by_cases first : i = place
      · rw [first] at absent ⊢
        rw [List.filterMap_cons_some here, put, if_pos (same.mp first)]
        refine congrArg (record :: ·) (List.filterMap_congr fun j inside => others j ?_)
        rintro rfl
        exact absent inside
      · have later := (List.mem_cons.mp member).resolve_left fun h => first h.symm
        rw [List.filterMap_cons_some ((others i first).trans behind), put,
          if_neg fun k => first (same.mpr k), inductionHypothesis held distinct later]

/-! ## The first record of each key -/

variable (key)

/-- The records that come first under their key, in order. -/
def firsts (records : List α) : List α :=
  records.foldl (fun kept record =>
    if kept.any fun old => key old = key record then kept else kept ++ [record]) []

theorem firsts_concat (records : List α) (last : α) :
    firsts key (records ++ [last]) =
      if (firsts key records).any (fun old => key old = key last) then firsts key records
      else firsts key records ++ [last] := by
  unfold firsts
  rw [List.foldl_append]
  rfl

/-- The first record of a key is the first one of that key among the first ones. -/
theorem find?_firsts (records : List α) (k : κ) :
    (firsts key records).find? (key · = k) = records.find? (key · = k) := by
  induction records using List.reverseRecOn with
  | nil => rfl
  | append_singleton earlier last inductionHypothesis =>
      rw [firsts_concat, List.find?_append, ← inductionHypothesis]
      split
      · next known =>
          obtain ⟨old, member, same⟩ := List.any_eq_true.mp known
          by_cases here : key last = k
          · have present : ((firsts key earlier).find? (key · = k)).isSome = true :=
              List.find?_isSome.mpr ⟨old, member, by simpa [here] using same⟩
            rw [Option.or_of_isSome present]
          · simp [here]
      · rw [List.find?_append]

theorem any_firsts (records : List α) (k : κ) :
    (firsts key records).any (fun old => key old = k) = records.any (fun old => key old = k) := by
  have same := congrArg Option.isSome (find?_firsts key records k)
  rwa [List.isSome_find?, List.isSome_find?] at same

/-- A key that is new has its first record at the end. -/
theorem firsts_concat_of_new {records : List α} {last : α}
    (new : ∀ old ∈ records, key old ≠ key last) :
    firsts key (records ++ [last]) = firsts key records ++ [last] := by
  rw [firsts_concat, any_firsts, if_neg]
  simpa using new

theorem firsts_concat_of_known {records : List α} {last old : α} (member : old ∈ records)
    (same : key old = key last) : firsts key (records ++ [last]) = firsts key records := by
  rw [firsts_concat, any_firsts, if_pos]
  exact List.any_eq_true.mpr ⟨old, member, decide_eq_true same⟩

/-- Every key has one first record. -/
theorem nodup_keys_firsts (records : List α) : ((firsts key records).map key).Nodup := by
  induction records using List.reverseRecOn with
  | nil => exact List.nodup_nil
  | append_singleton earlier last inductionHypothesis =>
      rw [firsts_concat]
      split
      · exact inductionHypothesis
      · next new =>
          rw [List.map_append, List.nodup_append]
          refine ⟨inductionHypothesis, by simp, fun k member k' last' => ?_⟩
          obtain ⟨old, there, rfl⟩ := List.mem_map.mp member
          rintro rfl
          refine new (List.any_eq_true.mpr ⟨old, there, decide_eq_true ?_⟩)
          simpa using last'

theorem mem_firsts_concat {records : List α} {record : α} (last : α)
    (member : record ∈ firsts key records) : record ∈ firsts key (records ++ [last]) := by
  rw [firsts_concat]
  split
  · exact member
  · exact List.mem_append_left _ member

theorem mem_of_mem_firsts {records : List α} {record : α} (member : record ∈ firsts key records) :
    record ∈ records := by
  induction records using List.reverseRecOn with
  | nil => exact member
  | append_singleton earlier last inductionHypothesis =>
      rw [firsts_concat] at member
      split at member
      · exact List.mem_append_left _ (inductionHypothesis member)
      · rcases List.mem_append.mp member with before | here
        · exact List.mem_append_left _ (inductionHypothesis before)
        · exact List.mem_append_right _ here

theorem mem_keys_firsts {records : List α} {k : κ} :
    k ∈ (firsts key records).map key ↔ k ∈ records.map key := by
  have same := any_firsts key records k
  rw [Bool.eq_iff_iff, List.any_eq_true, List.any_eq_true] at same
  simpa only [List.mem_map, decide_eq_true_eq] using same

theorem find?_eq_some_of_mem {records : List α} (distinct : (records.map key).Nodup) {record : α}
    (member : record ∈ records) : records.find? (key · = key record) = some record := by
  rw [← List.head?_filter, filter_key_of_mem distinct member]
  rfl

/-- The first record of a key: the others under it come later. -/
theorem exists_split_of_mem_firsts {records : List α} {record : α}
    (member : record ∈ firsts key records) :
    ∃ before after, records = before ++ record :: after ∧ ∀ old ∈ before, key old ≠ key record := by
  induction records using List.reverseRecOn with
  | nil => exact absurd member List.not_mem_nil
  | append_singleton earlier last inductionHypothesis =>
      have among (inside : record ∈ firsts key earlier) :
          ∃ before after, earlier ++ [last] = before ++ record :: after ∧
            ∀ old ∈ before, key old ≠ key record := by
        obtain ⟨before, after, rfl, first⟩ := inductionHypothesis inside
        exact ⟨before, after ++ [last], by simp, first⟩
      rw [firsts_concat, any_firsts] at member
      split at member
      · exact among member
      · next new =>
          rcases List.mem_append.mp member with inside | here
          · exact among inside
          · cases List.mem_singleton.mp here
            exact ⟨earlier, [], rfl, by simpa using new⟩

end Opencodepp.Library.Keyed

/-!
## Keys of tables

What the updates of an association list do to its keys and to their number.
-/

namespace Opencodepp.Library.Table

variable {α : Type} [DecidableEq α] {β : α → Type} {s : AList β} {a : α}

theorem perm_keys_insert (member : a ∈ s) (b : β a) : (s.insert a b).keys.Perm s.keys := by
  rw [AList.keys_insert]
  exact (List.perm_cons_erase member).symm

theorem keys_insert_of_notMem (absent : a ∉ s) (b : β a) :
    (s.insert a b).keys = a :: s.keys := by
  rw [AList.keys_insert, List.erase_of_not_mem absent]

theorem length_keys_erase (member : a ∈ s) : (s.erase a).keys.length + 1 = s.keys.length := by
  rw [AList.keys_erase, List.length_erase_of_mem member]
  have := List.length_pos_of_mem (AList.mem_keys.mp member)
  omega

theorem perm_keys_erase (absent : a ∉ s) : (s.erase a).keys.Perm s.keys := by
  rw [AList.keys_erase, List.erase_of_not_mem absent]

end Opencodepp.Library.Table
