import HuyaOS.Storage.PrimaryPartition

/-!
Disks with one extended partition and a proper list of boot records in it. The
records lie in different sectors of the extended partition and can be read. The last
one has no link, and only a list of one record may be without partition.

The lemmas say what is read after a record has been overwritten: the list ends
before the record, or goes on with another partition in it, or goes on behind what
was its end.
-/

namespace HuyaOS.Storage

open Lib Disk List

def PartitionTableEntry.Contains (e : PartitionTableEntry) (sector : UInt32) : Prop :=
  e.relativeSector.toNat ≤ sector.toNat ∧
    sector.toNat < e.relativeSector.toNat + e.sectorCount.toNat

/-- The boot records in the extended partition: those with a link, and the last one. -/
structure LogicalList (disk : Disk) (extPart : PartitionTableEntry) where
  linked : List (UInt32 × PartitionTableEntry)
  last : UInt32
  path : Path (disk.node extPart.relativeSector) extPart.relativeSector linked last
  signed : signature (disk.data last) = 0xaa55
  unlinked : (entry (disk.data last) 1).systemId = EMPTY
  used : (entry (disk.data last) 0).systemId = EMPTY → linked = []
  nodup : (linked.map Prod.fst ++ [last]).Nodup
  inside : ∀ r ∈ linked.map Prod.fst ++ [last], extPart.Contains r
  readable : ∀ r, extPart.Contains r → disk.readable r = true
  pos : 0 < extPart.relativeSector.toNat

namespace LogicalList

variable {disk : Disk} {extPart : PartitionTableEntry} (l : LogicalList disk extPart)

def records : List UInt32 := l.linked.map Prod.fst ++ [l.last]

/-- The partition in the last record, if there is one. -/
def lastItems : List (UInt32 × PartitionTableEntry) :=
  if (entry (disk.data l.last) 0).systemId = EMPTY then []
    else [(l.last, entry (disk.data l.last) 0)]

def items : List (UInt32 × PartitionTableEntry) := l.linked ++ l.lastItems

variable {l} {r : UInt32} {j : Nat} {node' : UInt32 → Option (PartitionTableEntry × Option UInt32)}

theorem ne_zero_of_contains (l : LogicalList disk extPart) (h : extPart.Contains r) : r ≠ 0 := by
  rintro rfl
  exact Nat.not_lt.mpr h.1 l.pos

theorem readable_of_mem (h : r ∈ l.records) : disk.readable r = true := l.readable r (l.inside r h)

theorem signed_of_mem (h : r ∈ l.records) : signature (disk.data r) = 0xaa55 := by
  obtain hlinked | hlast := mem_append.mp h
  · obtain ⟨⟨p, e⟩, hmem, rfl⟩ := mem_map.mp hlinked
    obtain ⟨before, after, hsplit⟩ := append_of_mem hmem
    have hpath := l.path
    rw [hsplit, path_append] at hpath
    obtain ⟨middle, -, rfl, next, hnode, -⟩ := hpath
    rw [node_of_readable (l.readable_of_mem h), bootNode_eq_some_iff] at hnode
    exact hnode.1
  · obtain rfl := mem_singleton.mp hlast
    exact l.signed

theorem last_mem : l.last ∈ l.records := mem_append_right _ (mem_singleton_self _)

theorem ends_last (h : node' l.last = disk.node extPart.relativeSector l.last) :
    Ends node' l.last l.lastItems := by
  rw [node_of_readable (l.readable_of_mem l.last_mem)] at h
  unfold lastItems
  by_cases hused : (entry (disk.data l.last) 0).systemId = EMPTY
  · rw [if_pos hused, ends_of_none (h.trans (bootNode_of_empty hused))]
  · rw [if_neg hused, ends_of_last (h.trans (bootNode_of_last l.signed hused l.unlinked))]

theorem ends_congr (h : ∀ r ∈ l.records, node' r = disk.node extPart.relativeSector r) :
    Ends node' extPart.relativeSector l.items :=
  (l.path.congr fun r hr => h r (mem_append_left _ hr)).ends_iff.mpr
    ⟨l.lastItems, rfl, l.ends_last (h l.last l.last_mem)⟩

theorem ends : Ends (disk.node extPart.relativeSector) extPart.relativeSector l.items :=
  l.ends_congr fun _ _ => rfl

theorem length_records : l.records.length = max l.items.length 1 := by
  unfold records items lastItems
  split
  · rename_i hempty
    rw [l.used hempty]
    rfl
  · simp

theorem mem_records_of_items (h : r ∈ l.items.map Prod.fst) : r ∈ l.records := by
  unfold items lastItems at h
  rw [map_append, mem_append] at h
  obtain hlinked | hlast := h
  · exact mem_append_left _ hlinked
  · split at hlast
    · exact absurd hlast not_mem_nil
    · exact mem_append_right _ hlast

theorem items_eq_nil_iff : l.items = [] ↔ (entry (disk.data l.last) 0).systemId = EMPTY := by
  unfold items lastItems
  split
  · rename_i hempty
    simp only [l.used hempty, hempty, append_nil]
  · rename_i hused
    simp only [hused, append_eq_nil_iff, cons_ne_nil, and_false]

theorem items_eq (hused : l.items ≠ []) :
    l.items = l.linked ++ [(l.last, entry (disk.data l.last) 0)] := by
  unfold items lastItems
  rw [if_neg (mt l.items_eq_nil_iff.mpr hused)]

theorem map_items (hused : l.items ≠ []) : l.items.map Prod.fst = l.records := by
  rw [l.items_eq hused, map_append]
  rfl

section Set

variable {buff : Sector}

theorem records_cases (h : l.records[j]? = some r) :
    (∃ before e after, l.linked = before ++ (r, e) :: after ∧ before.length = j) ∨
      r = l.last ∧ j = l.linked.length := by
  unfold records at h
  rw [List.getElem?_append, length_map] at h
  split at h
  · rename_i hj
    left
    rw [List.getElem?_map, List.getElem?_eq_getElem hj, Option.map_some, Option.some.injEq] at h
    refine ⟨l.linked.take j, l.linked[j].2, l.linked.drop (j + 1), ?_, length_take_of_le hj.le⟩
    rw [← h, ← drop_eq_getElem_cons hj, take_append_drop]
  · right
    rw [List.getElem?_singleton] at h
    split at h
    · exact ⟨(Option.some.inj h).symm, by omega⟩
    · exact absurd h.symm (Option.some_ne_none r)

theorem used_of_pos (h : l.records[j]? = some r) (hj : 0 < j) :
    (entry (disk.data r) 0).systemId ≠ EMPTY := by
  have hreadable := l.readable_of_mem (mem_of_getElem? h)
  obtain ⟨before, e, after, hlinked, rfl⟩ | ⟨rfl, rfl⟩ := l.records_cases h
  · have hpath := l.path
    rw [hlinked, path_append] at hpath
    obtain ⟨middle, -, rfl, next, hnode, -⟩ := hpath
    rw [node_of_readable hreadable, bootNode_eq_some_iff] at hnode
    exact hnode.2.1
  · intro hempty
    rw [l.used hempty] at hj
    exact Nat.lt_irrefl 0 hj

theorem readable_of_take {p : UInt32} (h : p ∈ (l.items.take j).map Prod.fst) :
    disk.readable p = true :=
  l.readable_of_mem (l.mem_records_of_items (map_subset _ (take_subset _ _) h))

section

variable (h : l.records[j]? = some r)

include h

theorem length_take : (l.items.take j).length = j := by
  refine length_take_of_le ?_
  unfold items
  obtain ⟨before, e, after, hlinked, rfl⟩ | ⟨-, rfl⟩ := l.records_cases h
  · rw [hlinked, append_assoc, length_append]
    exact Nat.le_add_right _ _
  · rw [length_append]
    exact Nat.le_add_right _ _

theorem path_take :
    Path (disk.node extPart.relativeSector) extPart.relativeSector (l.items.take j) r ∧
      r ∉ (l.items.take j).map Prod.fst := by
  have hpath := l.path
  have hnodup := l.nodup
  obtain ⟨before, e, after, hlinked, rfl⟩ | ⟨rfl, rfl⟩ := l.records_cases h
  · have htake : l.items.take before.length = before := by
      unfold items
      rw [hlinked, append_assoc, take_left]
    rw [hlinked, path_append] at hpath
    rw [hlinked, map_append, map_cons, append_assoc, cons_append, nodup_middle,
      nodup_cons] at hnodup
    obtain ⟨middle, hbefore, rfl, -⟩ := hpath
    rw [htake]
    exact ⟨hbefore, fun hmem => hnodup.1 (mem_append_left _ hmem)⟩
  · have htake : l.items.take l.linked.length = l.linked := take_left
    rw [nodup_middle, nodup_cons, append_nil] at hnodup
    rw [htake]
    exact ⟨hpath, hnodup.1⟩

theorem ne_of_mem_drop {k : Nat} (hlt : j < k) {t : UInt32} (ht : t ∈ l.records.drop k) :
    t ≠ r := by
  rintro rfl
  obtain ⟨i, hi⟩ := List.getElem?_of_mem ht
  rw [List.getElem?_drop] at hi
  have := (List.getElem?_inj (List.getElem?_eq_some_iff.mp h).1 l.nodup).mp (h.trans hi.symm)
  omega

theorem ends_drop : (entry (disk.data r) 1).systemId = EMPTY ∧ l.items.drop (j + 1) = [] ∨
      (entry (disk.data r) 1).systemId ≠ EMPTY ∧
        ∀ node' : UInt32 → Option (PartitionTableEntry × Option UInt32),
          (∀ t ∈ l.records.drop (j + 1), node' t = disk.node extPart.relativeSector t) →
          Ends node' (extPart.relativeSector + (entry (disk.data r) 1).relativeSector)
            (l.items.drop (j + 1)) := by
  have hpath := l.path
  have hmem : r ∈ l.records := mem_of_getElem? h
  obtain ⟨before, e, after, hlinked, rfl⟩ | ⟨rfl, rfl⟩ := l.records_cases h
  · right
    rw [hlinked, path_append] at hpath
    obtain ⟨middle, -, rfl, next, hnode, hrest⟩ := hpath
    rw [node_of_readable (l.readable_of_mem hmem), bootNode_eq_some_iff] at hnode
    obtain ⟨-, -, -, hlink, rfl⟩ := hnode
    have hdrop : l.items.drop (before.length + 1) = after ++ l.lastItems := by
      unfold items
      rw [hlinked, append_assoc, drop_length_add_append]
      rfl
    have hbehind : l.records.drop (before.length + 1) = after.map Prod.fst ++ [l.last] := by
      unfold records
      rw [hlinked, map_append, append_assoc, ← before.length_map Prod.fst, drop_length_add_append]
      rfl
    refine ⟨hlink, fun node' hnode' => ?_⟩
    rw [hbehind, forall_mem_append, forall_mem_singleton] at hnode'
    rw [hdrop]
    exact (hrest.congr hnode'.1).ends_iff.mpr ⟨l.lastItems, rfl, l.ends_last hnode'.2⟩
  · left
    refine ⟨l.unlinked, ?_⟩
    unfold items lastItems
    rw [drop_length_add_append]
    split <;> rfl

theorem path_set (buff : Sector) :
    Path ((disk.set r buff).node extPart.relativeSector) extPart.relativeSector (l.items.take j) r ∧
      (disk.set r buff).node extPart.relativeSector r = bootNode extPart.relativeSector buff := by
  obtain ⟨hpath, hnot⟩ := l.path_take h
  exact ⟨hpath.congr fun t ht => node_set_of_ne (ne_of_mem_of_not_mem ht hnot),
    node_set_self (l.readable_of_mem (mem_of_getElem? h))⟩

theorem ends_set_empty (hempty : (entry buff 0).systemId = EMPTY) :
    Ends ((disk.set r buff).node extPart.relativeSector) extPart.relativeSector
      (l.items.take j) := by
  obtain ⟨hpath, hnode⟩ := l.path_set h buff
  rw [bootNode_of_empty hempty] at hnode
  exact hpath.ends_iff.mpr ⟨[], (append_nil _).symm, (ends_of_none hnode).mpr rfl⟩

/-- The record `j` has another partition and the link of the record `k`, so that the list leaves out
what was between them. -/
theorem ends_relink {k : Nat} {p : UInt32} (hk : l.records[k]? = some p) (hle : j ≤ k)
    (hnode : node' r = bootNode extPart.relativeSector buff)
    (hother : ∀ t, t ≠ r → t ≠ p → node' t = disk.node extPart.relativeSector t)
    (hsigned : signature buff = 0xaa55) (hused : (entry buff 0).systemId ≠ EMPTY)
    (hlink : entry buff 1 = entry (disk.data p) 1) :
    Ends node' extPart.relativeSector
      (l.items.take j ++ (r, entry buff 0) :: l.items.drop (k + 1)) := by
  obtain ⟨hpath, hnot⟩ := l.path_take h
  have hnot' : p ∉ (l.items.take j).map Prod.fst := fun hmem =>
    (l.path_take hk).2 (map_subset _ (take_subset_take_left _ hle) hmem)
  refine (hpath.congr fun t ht => hother t (ne_of_mem_of_not_mem ht hnot)
    (ne_of_mem_of_not_mem ht hnot')).ends_iff.mpr ⟨_, rfl, ?_⟩
  obtain ⟨hunlinked, hdrop⟩ | ⟨hlinked, hrest⟩ := l.ends_drop hk
  · rw [bootNode_of_last hsigned hused (hlink ▸ hunlinked)] at hnode
    rw [hdrop, ends_of_last hnode]
  · rw [bootNode_of_link hsigned hused (hlink ▸ hlinked), hlink] at hnode
    refine (ends_of_next hnode).mpr ⟨_, rfl, hrest _ fun t ht => hother t ?_ ?_⟩
    · exact l.ne_of_mem_drop h (by omega) ht
    · exact l.ne_of_mem_drop hk (by omega) ht

theorem ends_set_used (hsigned : signature buff = 0xaa55) (hused : (entry buff 0).systemId ≠ EMPTY)
    (hlink : entry buff 1 = entry (disk.data r) 1) :
    Ends ((disk.set r buff).node extPart.relativeSector) extPart.relativeSector
      (l.items.take j ++ (r, entry buff 0) :: l.items.drop (j + 1)) :=
  l.ends_relink h h le_rfl (l.path_set h buff).2 (fun _ ht _ => node_set_of_ne ht)
    hsigned hused hlink

end

theorem path_of_link {next : UInt32} (hused : l.items ≠ [])
    (hlast : node' l.last = some (entry (disk.data l.last) 0, some next))
    (hother : ∀ t ∈ l.linked.map Prod.fst, node' t = disk.node extPart.relativeSector t) :
    Path node' extPart.relativeSector l.items next := by
  rw [l.items_eq hused, path_append]
  exact ⟨l.last, l.path.congr hother, rfl, next, hlast, rfl⟩

end Set

end LogicalList

end HuyaOS.Storage
