import HuyaOS.Storage.ExtendedTable

/-!
What `writePartition` of a logical partition does to the partition table. A number
that has a boot record in the list is edited in its place: the flag, the system id
and the number of sectors are written, but the start sector is not. Another number is
appended with its start one sector behind the one that was asked for.
-/

namespace HuyaOS.Storage

open Lib Disk List

variable {disk : Disk} {writes : Nat → Bool} {n i : UInt8} {active : Bool} {systemId : UInt8}
  {startSector sectorCount : UInt32} {k : Nat} {start s : UInt32}

theorem number_step (hle : i.toNat + (k + 1) ≤ n.toNat) :
    i ≠ n ∧ (i + 1).toNat + k ≤ n.toNat ∧ i + 1 + UInt8.ofNat k = i + UInt8.ofNat (k + 1) := by
  have hn := n.toNat_lt
  refine ⟨?_, ?_, ?_⟩
  · rintro rfl
    omega
  · have hsucc : (i + 1).toNat = i.toNat + 1 := by
      simp
      omega
    omega
  · rw [UInt8.ofNat_add, UInt8.add_assoc, UInt8.add_comm (UInt8.ofNat k)]
    rfl

theorem seek_path {r : UInt32} {before : List (UInt32 × PartitionTableEntry)}
    (hpath : Path (disk.node start) s before r)
    (hreadable : ∀ p ∈ before.map Prod.fst, disk.readable p = true)
    (hle : i.toNat + before.length ≤ n.toNat) (rounds : Nat) (buff : Sector) :
    ∃ buff', disk.seek start n (rounds + before.length) i buff s =
      disk.seek start n rounds (i + UInt8.ofNat before.length) buff' r := by
  induction before generalizing s i buff with
  | nil =>
    obtain rfl : s = r := hpath
    exact ⟨buff, by simp⟩
  | cons item before ih =>
    obtain ⟨rfl, next, hnode, hrest⟩ := hpath
    rw [map_cons, forall_mem_cons] at hreadable
    rw [node_of_readable hreadable.1, bootNode_eq_some_iff] at hnode
    obtain ⟨hsigned, hused, -, hlink, rfl⟩ := hnode
    obtain ⟨hne, hle', hnumber⟩ := number_step hle
    obtain ⟨buff', hseek⟩ := ih hrest hreadable.2 hle' (disk.data item.1)
    refine ⟨buff', ?_⟩
    rw [length_cons, ← Nat.add_assoc, seek, read_of_readable hreadable.1]
    simp only [Bool.true_eq_false, if_false, hsigned, ne_eq, not_true_eq_false, hused, hne,
      or_self, hlink]
    rw [hseek, hnumber]

/-- The search stops at the record with the number, or before it at one that is unused or has
no link. -/
theorem seek_ok {rounds : Nat} {buff : Sector} {position : Position}
    (h : disk.seek start n rounds i buff s = .ok position) (hle : i.toNat ≤ n.toNat)
    (hrounds : i.toNat + rounds = n.toNat + 1) :
    disk.readable position.currentLogicalMbr = true ∧
      position.currentMbr = disk.data position.currentLogicalMbr ∧
      signature position.currentMbr = 0xaa55 ∧
      ∃ passed, Path (disk.node start) s passed position.currentLogicalMbr ∧
        position.i.toNat = i.toNat + passed.length ∧
        (position.i = n ∧ position.appendToList = false ∨
          position.i.toNat < n.toNat ∧ ((entry position.currentMbr 0).systemId = EMPTY ∨
            (entry position.currentMbr 1).systemId = EMPTY)) := by
  induction rounds generalizing i buff s with
  | zero => omega
  | succ rounds ih =>
    unfold seek at h
    by_cases hreadable : disk.readable s = true
    · rw [read_of_readable hreadable] at h
      by_cases hsigned : signature (disk.data s) = 0xaa55
      · simp only [Bool.true_eq_false, if_false, hsigned, ne_eq, not_true_eq_false] at h
        by_cases hstop : (entry (disk.data s) 0).systemId = EMPTY ∨ i = n
        · rw [if_pos hstop, Except.ok.injEq] at h
          subst h
          refine ⟨hreadable, rfl, hsigned, [], rfl, rfl, ?_⟩
          by_cases hn : i = n
          · exact .inl ⟨hn, rfl⟩
          · exact .inr ⟨lt_of_le_of_ne hle fun heq => hn (UInt8.toNat_inj.mp heq),
              .inl (hstop.resolve_right hn)⟩
        rw [if_neg hstop] at h
        obtain ⟨hused, hn⟩ := not_or.mp hstop
        have hlt : i.toNat < n.toNat := lt_of_le_of_ne hle fun heq => hn (UInt8.toNat_inj.mp heq)
        by_cases hlink : (entry (disk.data s) 1).systemId = EMPTY
        · rw [if_pos hlink, Except.ok.injEq] at h
          subst h
          exact ⟨hreadable, rfl, hsigned, [], rfl, rfl, .inr ⟨hlt, .inr hlink⟩⟩
        · rw [if_neg hlink] at h
          obtain ⟨-, hle', -⟩ := number_step (k := 0) (i := i) (n := n) hlt
          have hsucc : (i + 1).toNat = i.toNat + 1 := by
            have := n.toNat_lt
            simp
            omega
          obtain ⟨hreadable', hdata, hsigned', passed, hpath, hnumber, hcases⟩ :=
            ih h hle' (by omega)
          refine ⟨hreadable', hdata, hsigned', (s, entry (disk.data s) 0) :: passed, ?_, ?_, hcases⟩
          · refine ⟨rfl, _, ?_, hpath⟩
            rw [node_of_readable hreadable, bootNode_of_link hsigned hused hlink]
          · rw [hnumber, hsucc, length_cons]
            omega
      · simp only [Bool.true_eq_false, if_false, ne_eq, hsigned, not_false_eq_true, if_true] at h
        cases h
    · unfold Disk.read at h
      rw [if_neg hreadable] at h
      cases h

variable {extPart : PartitionTableEntry} {l : LogicalList disk extPart} {r : UInt32}

theorem ofNat_lt_of_lt (h : k < n.toNat) : UInt8.ofNat k < n := by
  have hn := n.toNat_lt
  rw [UInt8.lt_iff_toNat_lt, UInt8.toNat_ofNat', Nat.mod_eq_of_lt (by omega)]
  exact h

theorem five_add_ofNat (hn : 5 ≤ n.toNat) : 5 + UInt8.ofNat (n.toNat - 5) = n := by
  rw [show 5 = UInt8.ofNat 5 from rfl, ← UInt8.ofNat_add, Nat.add_sub_cancel' hn, UInt8.ofNat_toNat]

theorem LogicalList.seek_record (hn : 5 ≤ n.toNat) (h : l.records[n.toNat - 5]? = some r)
    (buff : Sector) :
    disk.seek extPart.relativeSector n (n.toNat - 4) 5 buff extPart.relativeSector =
      .ok ⟨disk.data r, r, false, n⟩ := by
  have hmem := mem_of_getElem? h
  have hlength := l.length_take h
  obtain ⟨buff', hseek⟩ := seek_path (i := 5) (l.path_take h).1 (fun _ => l.readable_of_take)
    (by rw [hlength]; exact (Nat.add_sub_cancel' hn).le) 1 buff
  rw [hlength, five_add_ofNat hn, show 1 + (n.toNat - 5) = n.toNat - 4 by omega] at hseek
  rw [hseek, seek, read_of_readable (l.readable_of_mem hmem)]
  simp only [Bool.true_eq_false, if_false, l.signed_of_mem hmem, ne_eq, not_true_eq_false,
    or_true, if_true]

theorem LogicalList.seek_last (h : l.records.length + 5 ≤ n.toNat) (buff : Sector) :
    disk.seek extPart.relativeSector n (n.toNat - 4) 5 buff extPart.relativeSector =
      .ok ⟨disk.data l.last, l.last, decide (l.items ≠ []),
        UInt8.ofNat (4 + l.records.length)⟩ := by
  have hlength : l.records.length = l.linked.length + 1 := by simp [LogicalList.records]
  have hplaces : ∀ p ∈ l.linked.map Prod.fst, disk.readable p = true := fun p hp =>
    l.readable_of_mem (mem_append_left _ hp)
  obtain ⟨buff', hseek⟩ := seek_path (i := 5) l.path hplaces
    (show 5 + l.linked.length ≤ n.toNat by omega) (n.toNat - 5 - l.linked.length + 1) buff
  have hnumber : 5 + UInt8.ofNat l.linked.length = UInt8.ofNat (4 + l.records.length) := by
    rw [hlength, show 4 + (l.linked.length + 1) = 5 + l.linked.length by omega, UInt8.ofNat_add]
    rfl
  have hne : UInt8.ofNat (4 + l.records.length) ≠ n := UInt8.ne_of_lt (ofNat_lt_of_lt (by omega))
  rw [hnumber, show n.toNat - 5 - l.linked.length + 1 + l.linked.length =
    n.toNat - 4 by omega] at hseek
  rw [hseek, seek, read_of_readable (l.readable_of_mem l.last_mem)]
  simp only [Bool.true_eq_false, if_false, l.signed, ne_eq, not_true_eq_false, hne, or_false,
    l.unlinked, if_true, l.items_eq_nil_iff]
  by_cases hempty : (entry (disk.data l.last) 0).systemId = EMPTY
  · simp [hempty]
  · simp [hempty]

theorem not_primary_of_le (hn : 5 ≤ n.toNat) : ¬n < 1 ∧ ¬n ≤ 4 := by
  change ¬n.toNat < 1 ∧ ¬n.toNat ≤ 4
  omega

section

variable (hreadable : disk.readable 0 = true) (hsigned : signature (disk.data 0) = 0xaa55)

include hreadable hsigned

theorem writePartition_of_logical (hn : 5 ≤ n.toNat) :
    disk.writePartition writes n active systemId startSector sectorCount =
      disk.writeLogical writes (disk.data 0) n active systemId startSector sectorCount := by
  obtain ⟨hfirst, hprimary⟩ := not_primary_of_le hn
  unfold writePartition
  rw [read_of_readable hreadable]
  simp only [hfirst, if_false, Bool.true_eq_false, hsigned, ne_eq, not_true_eq_false, hprimary]

theorem writePartition_of_none
    (honly : ∀ i ∈ slots, isExtended (entry (disk.data 0) i).systemId = false) (hn : 5 ≤ n.toNat) :
    disk.writePartition writes n active systemId startSector sectorCount =
      .fail .EXTENDED_PARTITION_NOT_FOUND disk := by
  rw [writePartition_of_logical hreadable hsigned hn]
  unfold writeLogical
  rw [findExtended_eq_none honly]

end

namespace ExtendedTable

variable (t : ExtendedTable disk)

theorem writePartition_eq (hn : 5 ≤ n.toNat) :
    disk.writePartition writes n active systemId startSector sectorCount =
      match disk.seek t.extPart.relativeSector n (n.toNat - 4) 5
        (disk.stack t.extPart.relativeSector)
          t.extPart.relativeSector with
      | .error code => .fail code disk
      | .ok position =>
        if position.appendToList then
          disk.appendLogical writes t.extPart.relativeSector position active systemId
            startSector sectorCount
        else disk.editLogical writes position active systemId startSector sectorCount := by
  rw [writePartition_of_logical t.one.readable t.one.signed hn]
  unfold writeLogical
  rw [t.one.findExtended_eq]
  rfl

theorem writePartition_edit (hn : 5 ≤ n.toNat) (h : t.list.records[n.toNat - 5]? = some r) :
    disk.writePartition writes n active systemId startSector sectorCount =
      disk.editLogical writes ⟨disk.data r, r, false, n⟩ active systemId startSector
        sectorCount := by
  rw [t.writePartition_eq hn]
  unfold extPart
  rw [t.list.seek_record hn h]
  simp only [Bool.false_eq_true, if_false]

theorem writePartition_append (h : t.list.records.length + 5 ≤ n.toNat)
    (hused : t.list.items ≠ []) :
    disk.writePartition writes n active systemId startSector sectorCount =
      disk.appendLogical writes t.extPart.relativeSector
        ⟨disk.data t.list.last, t.list.last, true, UInt8.ofNat (4 + t.list.records.length)⟩
        active systemId startSector sectorCount := by
  rw [t.writePartition_eq (by omega)]
  unfold extPart
  rw [t.list.seek_last h]
  simp only [hused, ne_eq, not_false_eq_true, decide_true, if_true]

/-- A list without partitions has one record, and every number is written there. -/
theorem writePartition_fill (h : t.list.records.length + 5 ≤ n.toNat)
    (hunused : t.list.items = []) :
    disk.writePartition writes n active systemId startSector sectorCount =
      disk.editLogical writes ⟨disk.data t.list.last, t.list.last, false, 5⟩ active systemId
        startSector sectorCount := by
  have hlength : t.list.records.length = 1 := by rw [t.list.length_records, hunused]; rfl
  rw [t.writePartition_eq (by omega)]
  unfold extPart
  rw [t.list.seek_last h, hlength]
  simp only [hunused, ne_eq, not_true_eq_false, decide_false, Bool.false_eq_true, if_false]
  rfl

variable {t} {j : Nat}

theorem ne_zero_of_mem (h : r ∈ t.list.records) : r ≠ 0 :=
  t.list.ne_zero_of_contains (t.list.inside r h)

theorem reads_edit (h : t.list.records[j]? = some r) (hid : systemId ≠ EMPTY) :
    let e := edited (entry (disk.data r) 0) active systemId sectorCount
    (disk.set r (setEntry (disk.data r) 0 e)).Reads
      (t.tableWith (numbered 5 (t.list.items.take j ++ (r, e) :: t.list.items.drop (j + 1)))) := by
  intro e
  have hmem := mem_of_getElem? h
  have hsigned : signature (setEntry (disk.data r) 0 e) = 0xaa55 :=
    (signature_setEntry (by decide)).trans (t.list.signed_of_mem hmem)
  have hends := t.list.ends_set_used h hsigned (by exact hid) (entry_setEntry_of_ne (by decide))
  rw [entry_setEntry_self] at hends
  exact t.reads_set (ne_zero_of_mem hmem) hends

theorem reads_edit_empty (h : t.list.records[j]? = some r) (hid : systemId = EMPTY) :
    (disk.set r (setEntry (disk.data r) 0
      (edited (entry (disk.data r) 0) active systemId sectorCount))).Reads
      (t.tableWith (numbered 5 (t.list.items.take j))) := by
  refine t.reads_set (ne_zero_of_mem (mem_of_getElem? h)) (t.list.ends_set_empty h ?_)
  exact hid

theorem bootNode_linkRecord (hused : t.list.items ≠ []) :
    bootNode t.extPart.relativeSector
        (linkRecord (disk.data t.list.last) t.extPart.relativeSector active startSector
          sectorCount) =
      some (entry (disk.data t.list.last) 0, some startSector) := by
  rw [bootNode_eq_some_iff]
  unfold linkRecord
  rw [entry_setEntry_self]
  refine ⟨t.list.signed, mt t.list.items_eq_nil_iff.mpr hused, rfl,
    show EXTENDED_PARTITION_LBA ≠ EMPTY by decide, ?_⟩
  exact ((UInt32.add_comm _ _).trans (UInt32.sub_add_cancel _ _)).symm

theorem bootNode_newRecord (start : UInt32) :
    bootNode start (newRecord active systemId sectorCount) =
      if systemId = EMPTY then none
        else some (partEntry active systemId 1 (sectorCount - 1), none) := by
  have hentry : entry (newRecord active systemId sectorCount) 0 =
      partEntry active systemId 1 (sectorCount - 1) :=
    (entry_sign (by decide)).trans entry_setEntry_self
  have hlink : (entry (newRecord active systemId sectorCount) 1).systemId = EMPTY := by
    unfold newRecord
    rfl
  have hsigned : signature (newRecord active systemId sectorCount) = 0xaa55 := signature_sign
  split
  · rename_i hid
    exact bootNode_of_empty (hentry ▸ hid)
  · rename_i hid
    rw [bootNode_of_last hsigned (hentry ▸ hid) hlink, hentry]

theorem reads_append (hused : t.list.items ≠ []) (hinside : t.extPart.Contains startSector)
    (hfree : startSector ∉ t.list.records) :
    ((disk.set t.list.last (linkRecord (disk.data t.list.last) t.extPart.relativeSector
      active startSector
        sectorCount)).set startSector (newRecord active systemId sectorCount)).Reads
      (t.tableWith (numbered 5 (t.list.items ++
        if systemId = EMPTY then []
          else [(startSector, partEntry active systemId 1 (sectorCount - 1))]))) := by
  generalize hbuff : linkRecord (disk.data t.list.last) t.extPart.relativeSector active startSector
    sectorCount = buff
  have hnodup := t.list.nodup
  rw [nodup_middle, nodup_cons, append_nil] at hnodup
  have hlast := t.list.last_mem
  have hreadable : (disk.set t.list.last buff).readable startSector = true :=
    t.list.readable startSector hinside
  have hzero : startSector ≠ 0 := t.list.ne_zero_of_contains hinside
  have hpath :
      Path (((disk.set t.list.last buff).set startSector
        (newRecord active systemId sectorCount)).node
      t.extPart.relativeSector) t.extPart.relativeSector t.list.items startSector := by
    refine t.list.path_of_link hused ?_ fun p hp => ?_
    · rw [node_set_of_ne (ne_of_mem_of_not_mem hlast hfree),
        node_set_self (t.list.readable_of_mem hlast), ← hbuff]
      exact bootNode_linkRecord hused
    · rw [node_set_of_ne (ne_of_mem_of_not_mem (mem_append_left _ hp) hfree),
        node_set_of_ne (ne_of_mem_of_not_mem hp hnodup.1)]
      rfl
  have hdata : (disk.set t.list.last buff).data 0 = disk.data 0 :=
    data_set_of_ne (Ne.symm (ne_zero_of_mem hlast))
  rw [(t.one.set (ne_zero_of_mem hlast) buff).reads_set_iff hzero, hdata]
  refine ⟨_, hpath.ends_iff.mpr ⟨_, rfl, ?_⟩, rfl⟩
  have hnode :
      ((disk.set t.list.last buff).set startSector (newRecord active systemId sectorCount)).node
      t.extPart.relativeSector startSector =
        if systemId = EMPTY then none
          else some (partEntry active systemId 1 (sectorCount - 1), none) :=
    (node_set_self hreadable).trans (bootNode_newRecord t.extPart.relativeSector)
  split at hnode
  · rename_i hid
    rw [if_pos hid, ends_of_none hnode]
  · rename_i hid
    rw [if_neg hid, ends_of_last hnode]

theorem numbered_replace {items : List (UInt32 × PartitionTableEntry)} (hj : j ≤ items.length)
    (item : UInt32 × PartitionTableEntry) :
    numbered 5 (items.take j ++ item :: items.drop (j + 1)) =
      (numbered 5 items).take j ++ logicalInfo (5 + UInt8.ofNat j) item :: (numbered 5 items).drop
        (j + 1) := by
  rw [numbered_append, length_take_of_le hj, numbered_take, numbered, ← numbered_drop,
    UInt8.ofNat_add, UInt8.add_assoc]
  rfl

theorem logicalInfo_edited {e : PartitionTableEntry} :
    logicalInfo n (r, edited e active systemId sectorCount) =
      ⟨n, .logical, active, systemId, r + if e.relativeSector = 0 then 1 else e.relativeSector,
        sectorCount⟩ := by
  cases active <;> rfl

/-- An appended partition begins one sector later, or is not listed at all. -/
theorem not_reads_appended (hused : t.list.items ≠ []) (hinside : t.extPart.Contains startSector)
    (hfree : startSector ∉ t.list.records) :
    ¬((disk.set t.list.last (linkRecord (disk.data t.list.last) t.extPart.relativeSector
      active startSector
        sectorCount)).set startSector (newRecord active systemId sectorCount)).Reads
      (t.tableWith (numbered 5 t.list.items ++
        [⟨n, .logical, active, systemId, startSector, sectorCount⟩])) := by
  rw [(reads_append hused hinside hfree).iff, tableWith_inj, numbered_append, append_cancel_left_eq]
  split
  · exact cons_ne_nil _ _
  · intro heq
    have hstart : startSector = startSector + 1 :=
      congrArg PartitionInfo.startSector (cons.inj heq).1
    exact absurd (UInt32.left_eq_add.mp hstart) (by decide)

theorem reads_edited_iff (hrecord : t.list.records[j]? = some r) (hj : j ≤ t.list.items.length)
    (hnumber : 5 + UInt8.ofNat j = n) :
    (disk.set r (setEntry (disk.data r) 0
      (edited (entry (disk.data r) 0) active systemId sectorCount))).Reads
        (t.tableWith ((numbered 5 t.list.items).take j ++ ⟨n, .logical, active, systemId,
          startSector, sectorCount⟩ ::
          (numbered 5 t.list.items).drop (j + 1))) ↔
      systemId ≠ EMPTY ∧
        startSector =
          r + (edited (entry (disk.data r) 0) active systemId sectorCount).relativeSector := by
  by_cases hid : systemId = EMPTY
  · refine iff_of_false ?_ fun h => h.1 hid
    rw [(reads_edit_empty hrecord hid).iff, tableWith_inj, numbered_take, append_right_eq_self]
    exact cons_ne_nil _ _
  · rw [(reads_edit hrecord hid).iff, tableWith_inj, numbered_replace hj, hnumber,
      logicalInfo_edited, append_cancel_left_eq, cons.injEq, PartitionInfo.mk.injEq]
    simp only [true_and, and_true, hid, ne_eq, not_false_eq_true]
    exact Iff.rfl

/-- A logical partition is read as it was written exactly if its number has a record
in the list, its system id is not that of an unused entry, and its start sector is
where the partition in this record begins already. -/
theorem writePartition_logical_round_trip (t : ExtendedTable disk) (writes : Nat → Bool) (n : UInt8)
    (active : Bool) (systemId : UInt8) (startSector sectorCount : UInt32) (hfirst : 5 ≤ n.toNat)
    (hlast : n.toNat ≤ 5 + t.list.items.length) (hinside : t.extPart.Contains startSector)
    (hfree : startSector ∉ t.list.records)
    (hsuccess : (disk.writePartition writes n active systemId startSector sectorCount).code =
        .SUCCESS) :
    let logical := numbered 5 t.list.items
    let j := n.toNat - 5
    disk.Reads (t.tableWith logical) ∧
      ((disk.writePartition writes n active systemId startSector sectorCount).disk.Reads
        (t.tableWith
          (logical.take j ++ ⟨n, .logical, active, systemId, startSector, sectorCount⟩ ::
            logical.drop (j + 1))) ↔
        systemId ≠ EMPTY ∧ ∃ r, t.list.records[j]? = some r ∧
          startSector =
            r + (edited (entry (disk.data r) 0) active systemId sectorCount).relativeSector) := by
  intro logical j
  refine ⟨t.reads, ?_⟩
  have hj : j ≤ t.list.items.length := by omega
  have hnumber : 5 + UInt8.ofNat j = n := five_add_ofNat hfirst
  have hlength : logical.length = t.list.items.length := length_numbered
  rcases hrecord : t.list.records[j]? with _ | r
  · -- the number is appended
    have hj' : t.list.records.length ≤ j := getElem?_eq_none_iff.mp hrecord
    have hused : t.list.items ≠ [] := by
      intro hnil
      rw [t.list.length_records] at hj'
      simp only [hnil, length_nil] at hj
      omega
    have hall : j = t.list.items.length := by
      rw [t.list.length_records] at hj'
      omega
    rw [t.writePartition_append (by omega) hused] at hsuccess ⊢
    rw [appendLogical_of_success hsuccess, hall, ← hlength, take_length,
      drop_of_length_le (Nat.le_succ _)]
    refine iff_of_false (not_reads_appended hused hinside hfree) fun ⟨_, r, hr, _⟩ => ?_
    exact absurd hr.symm (Option.some_ne_none r)
  · rw [t.writePartition_edit hfirst hrecord] at hsuccess ⊢
    rw [editLogical_of_success hsuccess]
    simp only [Option.some.injEq, exists_eq_left']
    exact reads_edited_iff hrecord hj hnumber

/-- The partition table of `withLogical`. -/
def ofWithLogical : ExtendedTable withLogical where
  slot := 1
  one := ⟨by rfl, by decide, by decide, by rfl, by decide⟩
  list :=
    { linked := []
      last := 10
      path := by rfl
      signed := by decide
      unlinked := by rfl
      used := fun _ => rfl
      nodup := by decide
      inside := by
        intro r hr
        obtain rfl := List.mem_singleton.mp hr
        exact ⟨by decide, by decide⟩
      readable := fun _ _ => rfl
      pos := by decide }

/-- The only logical partition gets another flag, system id and size. -/
theorem writePartition_logical_round_trip_withLogical :
    (withLogical.writePartition (fun _ => true) 5 false 0x07 11 8).disk.Reads
      [⟨5, .extended, false, 0x05, 10, 20⟩, ⟨5, .logical, false, 0x07, 11, 8⟩] :=
  (writePartition_logical_round_trip ofWithLogical (fun _ => true) 5 false 0x07 11 8
    (by decide) (by decide)
    ⟨by decide, by decide⟩ (by decide) (by rfl)).2.mpr ⟨by decide, 10, by rfl, by rfl⟩

/-- A second logical partition of 4 sectors from sector 20 on is read as one of 3
sectors from sector 21 on. -/
theorem writePartition_appended_withLogical :
    let outcome := withLogical.writePartition (fun _ => true) 6 false 0x07 20 4
    ofWithLogical.extPart.Contains 20 ∧ 20 ∉ ofWithLogical.list.records ∧ outcome.code = .SUCCESS ∧
      outcome.disk.Reads [⟨5, .extended, false, 0x05, 10, 20⟩, ⟨5, .logical, true, 0x83, 11, 5⟩,
        ⟨6, .logical, false, 0x07, 21, 3⟩] :=
  ⟨⟨by decide, by decide⟩, by decide, by rfl, 3, by rfl⟩

end ExtendedTable

end HuyaOS.Storage
