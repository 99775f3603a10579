import HuyaOS.Lib.Tiling

/-!
The region of a heap as a sequence of blocks. This is the picture behind the
allocator, free of memory and pointers: a block is a header followed by its
payload, it is free or live, and the operations cut, release and join blocks.
-/

namespace HuyaOS.FreeListMemoryManager

open Lib List

/-- A header at `addr` with `size` payload bytes behind it. -/
structure Block where
  addr : Nat
  size : Nat
  free : Bool
  deriving DecidableEq, Repr

namespace Block

def payload (b : Block) : Nat := b.addr + 12

def finish (b : Block) : Nat := b.addr + 12 + b.size

end Block

/-- The blocks partition the addresses from `a` to `e`. -/
abbrev Partition (a : Nat) (bs : List Block) (e : Nat) : Prop :=
  Tiles Block.addr Block.finish a bs e

def freeAddrs (bs : List Block) : List Nat := (bs.filter (·.free)).map Block.addr

def freeTotal (bs : List Block) : Nat := ((bs.filter (·.free)).map Block.size).sum

def liveBlocks (bs : List Block) : List Block := bs.filter (fun b => !b.free)

def livePointers (bs : List Block) : List Nat := (liveBlocks bs).map Block.payload

def Merged (bs : List Block) : Prop := bs.IsChain (fun b c => ¬(b.free = true ∧ c.free = true))

/-- Taking `n` payload bytes of `b`: the rest becomes a free block if it can
hold a header and a minimal payload. -/
def cut (b : Block) (n : Nat) : List Block :=
  if n + 16 ≤ b.size then
    [⟨b.addr, n, false⟩, ⟨b.addr + 12 + n, b.size - n - 12, true⟩]
  else [⟨b.addr, b.size, false⟩]

def taken (b : Block) (n : Nat) : Block :=
  ⟨b.addr, if n + 16 ≤ b.size then n else b.size, false⟩

/-- The free block that covers `b` and the following `c`. -/
def join (b c : Block) : Block := ⟨b.addr, b.size + 12 + c.size, true⟩

def joinNext (b : Block) : List Block → Block × List Block
  | [] => (b, [])
  | c :: cs => if c.free then (join b c, cs) else (b, c :: cs)

def joinPrev (left : List Block) (b : Block) : List Block × Block :=
  match left.getLast? with
  | none => (left, b)
  | some l => if l.free then (left.dropLast, join l b) else (left, b)

/-- The free block that `b` between `left` and `right` grows into. -/
def coalesced (left : List Block) (b : Block) (right : List Block) : Block :=
  (joinPrev left (joinNext b right).1).2

/-- The layout in which the free block `b` has been joined with its free
neighbours. -/
def coalesce (left : List Block) (b : Block) (right : List Block) : List Block :=
  (joinPrev left (joinNext b right).1).1 ++ [coalesced left b right] ++ (joinNext b right).2

def startsFree (bs : List Block) : Bool := (bs.head?.map Block.free).getD false

def endsFree (bs : List Block) : Bool := (bs.getLast?.map Block.free).getD false

section Lists

variable {bs cs : List Block} {b : Block}

@[simp] theorem freeAddrs_nil : freeAddrs [] = [] := rfl

@[simp] theorem freeAddrs_append : freeAddrs (bs ++ cs) = freeAddrs bs ++ freeAddrs cs := by
  simp [freeAddrs]

theorem freeAddrs_cons_free (h : b.free = true) : freeAddrs (b :: bs) = b.addr :: freeAddrs bs := by
  simp [freeAddrs, h]

theorem freeAddrs_cons_live (h : b.free = false) : freeAddrs (b :: bs) = freeAddrs bs := by
  simp [freeAddrs, h]

theorem mem_freeAddrs {x : Nat} : x ∈ freeAddrs bs ↔ ∃ b ∈ bs, b.free = true ∧ b.addr = x := by
  simp [freeAddrs, and_assoc]

@[simp] theorem freeTotal_nil : freeTotal [] = 0 := rfl

@[simp] theorem freeTotal_append : freeTotal (bs ++ cs) = freeTotal bs + freeTotal cs := by
  simp [freeTotal]

theorem freeTotal_cons_free (h : b.free = true) : freeTotal (b :: bs) = b.size + freeTotal bs := by
  simp [freeTotal, h]

theorem freeTotal_cons_live (h : b.free = false) : freeTotal (b :: bs) = freeTotal bs := by
  simp [freeTotal, h]

@[simp] theorem liveBlocks_nil : liveBlocks [] = [] := rfl

@[simp] theorem liveBlocks_append : liveBlocks (bs ++ cs) = liveBlocks bs ++ liveBlocks cs := by
  simp [liveBlocks]

theorem liveBlocks_cons_free (h : b.free = true) : liveBlocks (b :: bs) = liveBlocks bs := by
  simp [liveBlocks, h]

theorem liveBlocks_cons_live (h : b.free = false) : liveBlocks (b :: bs) = b :: liveBlocks bs := by
  simp [liveBlocks, h]

theorem mem_liveBlocks : b ∈ liveBlocks bs ↔ b ∈ bs ∧ b.free = false := by
  simp [liveBlocks]

theorem livePointers_erase (hlive : b.free = false) :
    ((livePointers (bs ++ [b] ++ cs)).erase b.payload).Perm (livePointers (bs ++ cs)) := by
  have hmiddle : (livePointers (bs ++ [b] ++ cs)).Perm (b.payload :: livePointers (bs ++ cs)) := by
    simp only [livePointers, liveBlocks_append, liveBlocks_cons_live hlive, map_append,
      map_cons, append_assoc, singleton_append]
    exact perm_middle
  have herase := hmiddle.erase b.payload
  rwa [erase_cons_head] at herase

end Lists

section Cutting

variable {left right : List Block} {b : Block} {n : Nat}

theorem liveBlocks_cut (b : Block) (n : Nat) : liveBlocks (cut b n) = [taken b n] := by
  unfold cut taken
  split <;> rfl

theorem taken_mem_cut (b : Block) (n : Nat) : taken b n ∈ cut b n := by
  have hmem : taken b n ∈ liveBlocks (cut b n) := by simp [liveBlocks_cut]
  exact (mem_liveBlocks.mp hmem).1

theorem le_taken_size (hn : n ≤ b.size) : n ≤ (taken b n).size := by
  unfold taken
  split <;> simp only <;> omega

theorem taken_finish_le : (taken b n).finish ≤ b.finish := by
  unfold taken Block.finish
  split
  · simp only
    omega
  · exact Nat.le_refl _

theorem livePointers_cut (hfree : b.free = true) :
    (livePointers (left ++ cut b n ++ right)).Perm
      (b.payload :: livePointers (left ++ [b] ++ right)) := by
  simp only [livePointers, liveBlocks_append, liveBlocks_cut, liveBlocks_cons_free hfree,
    liveBlocks_nil, map_append, append_assoc, map_cons, map_nil]
  exact perm_middle

end Cutting

section Merging

variable {left right : List Block} {b : Block}

@[simp] theorem startsFree_nil : startsFree [] = false := rfl

@[simp] theorem startsFree_cons (bs : List Block) : startsFree (b :: bs) = b.free := rfl

@[simp] theorem endsFree_nil : endsFree [] = false := rfl

@[simp] theorem endsFree_concat (bs : List Block) : endsFree (bs ++ [b]) = b.free := by
  simp [endsFree]

@[simp] theorem endsFree_singleton : endsFree [b] = b.free := rfl

theorem merged_append {xs ys : List Block} :
    Merged (xs ++ ys) ↔
      Merged xs ∧ Merged ys ∧ (endsFree xs = false ∨ startsFree ys = false) := by
  unfold Merged
  rw [isChain_append]
  cases hlast : xs.getLast? with
  | none => simp [endsFree, hlast]
  | some x =>
    cases ys with
    | nil => simp
    | cons y ys => cases hx : x.free <;> simp [endsFree, hlast, hx]

@[simp] theorem merged_singleton : Merged [b] := isChain_singleton b

theorem merged_concat_live (hlive : b.free = false) (hleft : Merged left) : Merged (left ++ [b]) :=
  merged_append.mpr ⟨hleft, merged_singleton, .inr hlive⟩

theorem merged_around_live (hlive : b.free = false) (hleft : Merged left) (hright : Merged right) :
    Merged (left ++ [b] ++ right) := by
  apply merged_append.mpr
  refine ⟨merged_concat_live hlive hleft, hright, .inl ?_⟩
  rw [endsFree_concat, hlive]

theorem mem_around {d : Block} (mid : List Block) (hd : d ∈ left ++ right) :
    d ∈ left ++ mid ++ right := by
  rcases mem_append.mp hd with hd | hd
  · exact mem_append_left _ (mem_append_left _ hd)
  · exact mem_append_right _ hd

theorem merged_cut {n : Nat} (hfree : b.free = true) (h : Merged (left ++ [b] ++ right)) :
    Merged (left ++ cut b n ++ right) := by
  simp only [merged_append, endsFree_concat, startsFree_cons, hfree] at h
  obtain ⟨⟨hleft, _, _⟩, hright, hnext⟩ := h
  unfold cut
  split
  · rw [show left ++ [⟨b.addr, n, false⟩, ⟨b.addr + 12 + n, b.size - n - 12, true⟩] ++ right =
      left ++ [⟨b.addr, n, false⟩] ++ [⟨b.addr + 12 + n, b.size - n - 12, true⟩] ++ right by simp]
    apply merged_append.mpr
    refine ⟨?_, hright, ?_⟩
    · apply merged_append.mpr
      refine ⟨merged_concat_live rfl hleft, merged_singleton, .inl ?_⟩
      rw [endsFree_concat]
    · rw [endsFree_concat]
      exact hnext
  · exact merged_around_live rfl hleft hright

theorem joinNext_cases (b : Block) (right : List Block) :
    (startsFree right = false ∧ joinNext b right = (b, right)) ∨
      ∃ c cs, right = c :: cs ∧ c.free = true ∧ joinNext b right = (join b c, cs) := by
  cases right with
  | nil => exact .inl ⟨rfl, rfl⟩
  | cons c cs =>
    cases hfree : c.free with
    | false => exact .inl ⟨hfree, by simp [joinNext, hfree]⟩
    | true => exact .inr ⟨c, cs, rfl, hfree, by simp [joinNext, hfree]⟩

theorem joinPrev_cases (left : List Block) (b : Block) :
    (endsFree left = false ∧ joinPrev left b = (left, b)) ∨
      ∃ ls l, left = ls ++ [l] ∧ l.free = true ∧ joinPrev left b = (ls, join l b) := by
  rcases eq_nil_or_concat left with rfl | ⟨ls, l, rfl⟩
  · exact .inl ⟨rfl, rfl⟩
  · simp only [concat_eq_append]
    cases hfree : l.free with
    | false => exact .inl ⟨by simp [hfree], by simp [joinPrev, hfree]⟩
    | true => exact .inr ⟨ls, l, rfl, hfree, by simp [joinPrev, hfree]⟩

theorem joinNext_addr (b : Block) (right : List Block) : (joinNext b right).1.addr = b.addr := by
  rcases joinNext_cases b right with ⟨_, hn⟩ | ⟨c, cs, _, _, hn⟩
  · rw [hn]
  · rw [hn]
    rfl

theorem joinNext_free (hfree : b.free = true) : (joinNext b right).1.free = true := by
  rcases joinNext_cases b right with ⟨_, hn⟩ | ⟨c, cs, _, _, hn⟩
  · rwa [hn]
  · rw [hn]
    rfl

theorem coalesced_free (hfree : b.free = true) : (coalesced left b right).free = true := by
  unfold coalesced
  rcases joinPrev_cases left (joinNext b right).1 with ⟨_, hp⟩ | ⟨ls, l, _, _, hp⟩
  · rw [hp]
    exact joinNext_free hfree
  · rw [hp]
    rfl

theorem liveBlocks_coalesce (hfree : b.free = true) :
    liveBlocks (coalesce left b right) = liveBlocks (left ++ right) := by
  have hnext : liveBlocks (joinNext b right).2 = liveBlocks right := by
    rcases joinNext_cases b right with ⟨_, hn⟩ | ⟨c, cs, rfl, hc, hn⟩
    · rw [hn]
    · rw [hn, liveBlocks_cons_free hc]
  have hprev : liveBlocks (joinPrev left (joinNext b right).1).1 = liveBlocks left := by
    rcases joinPrev_cases left (joinNext b right).1 with ⟨_, hp⟩ | ⟨ls, l, rfl, hl, hp⟩
    · rw [hp]
    · rw [hp, liveBlocks_append, liveBlocks_cons_free hl, liveBlocks_nil, append_nil]
  unfold coalesce
  rw [liveBlocks_append, liveBlocks_append, liveBlocks_append, hnext, hprev,
    liveBlocks_cons_free (coalesced_free hfree), liveBlocks_nil, append_nil]

theorem merged_coalesce (hleft : Merged left) (hright : Merged right) :
    Merged (coalesce left b right) := by
  have hnext : Merged (joinNext b right).2 ∧ startsFree (joinNext b right).2 = false := by
    rcases joinNext_cases b right with ⟨hlive, hn⟩ | ⟨c, cs, rfl, hc, hn⟩
    · exact ⟨by rwa [hn], by rwa [hn]⟩
    · rw [show c :: cs = [c] ++ cs from rfl, merged_append] at hright
      rw [hn]
      exact ⟨hright.2.1, hright.2.2.resolve_left (by simp [hc])⟩
  have hprev : Merged (joinPrev left (joinNext b right).1).1 ∧
      endsFree (joinPrev left (joinNext b right).1).1 = false := by
    rcases joinPrev_cases left (joinNext b right).1 with ⟨hlive, hp⟩ | ⟨ls, l, rfl, hl, hp⟩
    · exact ⟨by rwa [hp], by rwa [hp]⟩
    · rw [merged_append] at hleft
      rw [hp]
      exact ⟨hleft.1, hleft.2.2.resolve_right (by simp [hl])⟩
  apply merged_append.mpr
  refine ⟨?_, hnext.1, .inr hnext.2⟩
  exact merged_append.mpr ⟨hprev.1, merged_singleton, .inl hprev.2⟩

theorem Merged.eq_of_no_live {bs : List Block} (h : Merged bs) (hnone : liveBlocks bs = []) :
    bs = [] ∨ ∃ b, b.free = true ∧ bs = [b] := by
  have hall : ∀ b ∈ bs, b.free = true := by
    simpa [liveBlocks] using hnone
  match bs with
  | [] => exact .inl rfl
  | [b] => exact .inr ⟨b, hall b (by simp), rfl⟩
  | b :: c :: cs =>
    unfold Merged at h
    rw [isChain_cons_cons] at h
    exact absurd ⟨hall b (by simp), hall c (by simp)⟩ h.1

end Merging

section Bounds

variable {a e : Nat} {bs left right : List Block}

section

variable (h : Partition a bs e)

include h

theorem Partition.block_bounds {b : Block} (hb : b ∈ bs) :
    a ≤ b.addr ∧ b.addr + 12 + b.size ≤ e := by
  have := Tiles.bounds h hb
  unfold Block.finish at this
  omega

theorem Partition.freeAddr_bounds {x : Nat} (hx : x ∈ freeAddrs bs) : a ≤ x ∧ x + 12 ≤ e := by
  obtain ⟨b, hb, _, rfl⟩ := mem_freeAddrs.mp hx
  have := h.block_bounds hb
  omega

theorem Partition.header_cases {b c : Block} (hb : b ∈ bs) (hc : c ∈ bs) :
    b.addr = c.addr ∨ b.addr + 12 + b.size ≤ c.addr ∨ c.addr + 12 + c.size ≤ b.addr := by
  by_cases heq : b = c
  · exact .inl (by rw [heq])
  · have := Tiles.separated h hb hc heq
    unfold Block.finish at this
    omega

theorem Partition.live_not_mem {b : Block} (hb : b ∈ bs) (hlive : b.free = false) :
    b.addr ∉ freeAddrs bs := by
  intro hmem
  obtain ⟨c, hc, hfree, haddr⟩ := mem_freeAddrs.mp hmem
  have heq : c = b := Tiles.eq_of_lo_eq h hc hb haddr
  rw [heq, hlive] at hfree
  cases hfree

theorem Partition.freeAddrs_sorted : (freeAddrs bs).Pairwise (· < ·) := by
  unfold freeAddrs
  rw [pairwise_map]
  refine (Tiles.pairwise h).filter _ |>.imp ?_
  intro x y hxy
  unfold Block.finish at hxy
  omega

theorem Partition.freeAddrs_nodup : (freeAddrs bs).Nodup :=
  h.freeAddrs_sorted.imp (fun hlt => Nat.ne_of_lt hlt)

theorem Partition.freeTotal_le : freeTotal bs ≤ e - a := by
  induction bs generalizing a with
  | nil => simp
  | cons b bs ih =>
    obtain ⟨haddr, _, hrest⟩ := h
    have hle := Tiles.le hrest
    have hrec := ih hrest
    unfold Block.finish at hle hrec
    cases hb : b.free with
    | true =>
      rw [freeTotal_cons_free hb]
      omega
    | false =>
      rw [freeTotal_cons_live hb]
      omega

theorem Partition.freeAddrs_length (he : e < 2 ^ 32) : (freeAddrs bs).length < 2 ^ 32 := by
  have hcount : (freeAddrs bs).length ≤ bs.length := by
    unfold freeAddrs
    rw [length_map]
    exact length_filter_le _ _
  have hlen := Tiles.length_mul_le (k := 1) h (fun b _ => by unfold Block.finish; omega)
  omega

end

theorem partition_cut {b : Block} {n c d : Nat} (h : Partition c [b] d) :
    Partition c (cut b n) d := by
  unfold cut
  simp only [tiles_cons, tiles_nil, Block.finish] at h
  split
  · simp only [tiles_cons, tiles_nil, Block.finish, true_and]
    omega
  · simp only [tiles_cons, tiles_nil, Block.finish]
    omega

theorem partition_join {b b' : Block} {c d : Nat} (h : Partition c [b, b'] d) :
    Partition c [join b b'] d := by
  simp only [tiles_cons, tiles_nil, Block.finish, join] at h ⊢
  omega

end Bounds

end HuyaOS.FreeListMemoryManager
