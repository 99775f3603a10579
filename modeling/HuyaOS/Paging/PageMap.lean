import HuyaOS.Paging.PageDirectory

/-!
What a page directory is for: a partial map from pages to frames with flags.
The calls of the directory are interpreted once on this map and once by the
code, so that the two can be compared call by call.
-/

namespace HuyaOS

open Lib Management Paging

/-- Where a page lives, and how it may be used. -/
structure Mapping where
  frame : Nat
  flags : Nat
  deriving DecidableEq, Repr

abbrev PageMap := Nat → Option Mapping

/-- The page of an address. -/
def pageOf (virtAddress : Nat) : Nat := virtAddress / PAGESIZE

namespace PageDirectory

/-- A call of the directory. `map` carries the page that would become a new
table. -/
inductive Call
  | map (physAddress virtAddress flags : Nat) (table : NewTable)
  | unmap (virtAddress : Nat)
  | protectPage (virtAddress : Nat)
  | unprotectPage (virtAddress : Nat)

/-- What the caller sees: a returned address, a plain return or an exception. -/
inductive Answer
  | returned
  | address (physAddress : Nat)
  | thrown (exception : Exception)
  deriving DecidableEq, Repr

def Call.virtAddress : Call → Nat
  | .map _ virtAddress _ _ => virtAddress
  | .unmap virtAddress => virtAddress
  | .protectPage virtAddress => virtAddress
  | .unprotectPage virtAddress => virtAddress

/-- The call as the code performs it. -/
def exec (m : Mem) (dir : PageDirectory) : Call → Answer × Mem
  | .map physAddress virtAddress flags table =>
      match map m dir table physAddress virtAddress flags with
      | (.ok (), m) => (.returned, m)
      | (.error exception, m) => (.thrown exception, m)
  | .unmap virtAddress =>
      let (physAddress, m) := unmap m dir virtAddress
      (.address physAddress, m)
  | .protectPage virtAddress => (.returned, protectPage m dir virtAddress)
  | .unprotectPage virtAddress => (.returned, unprotectPage m dir virtAddress)

end PageDirectory

namespace PageMap

open PageDirectory

/-- The page is present and must not be unmapped. -/
def IsProtected (e : Mapping) : Prop := e.flags &&& PAGE_WRITE_PROTECTED ≠ 0

instance (e : Mapping) : Decidable (IsProtected e) := inferInstanceAs (Decidable (_ ≠ _))

variable (pages : PageMap)

def frameAt (page : Nat) : Nat := ((pages page).map Mapping.frame).getD 0

/-- A new page is entered; a page that is present is left alone. -/
def map (page frame flags : Nat) : Answer × PageMap :=
  match pages page with
  | none => (.returned, Function.update pages page (some ⟨frame, flags⟩))
  | some _ => (.thrown .PAGING_ERROR, pages)

/-- A present page without protection is removed and its frame returned. -/
def unmap (page : Nat) : Answer × PageMap :=
  match pages page with
  | none => (.address 0, pages)
  | some e =>
      if IsProtected e then (.address 0, pages)
      else (.address e.frame, Function.update pages page none)

def setFlags (page : Nat) (update : Nat → Nat) : PageMap :=
  match pages page with
  | none => pages
  | some e => Function.update pages page (some ⟨e.frame, update e.flags⟩)

def exec : Call → Answer × PageMap
  | .map physAddress virtAddress flags _ => pages.map (pageOf virtAddress) physAddress flags
  | .unmap virtAddress => pages.unmap (pageOf virtAddress)
  | .protectPage virtAddress =>
      (.returned, pages.setFlags (pageOf virtAddress) (· ||| PAGE_WRITE_PROTECTED))
  | .unprotectPage virtAddress =>
      (.returned, pages.setFlags (pageOf virtAddress) (· &&& (0xFFF - PAGE_WRITE_PROTECTED)))

/-- A call with its answer takes one map to another. -/
def Step (label : Call × Answer) (pages' : PageMap) : Prop :=
  pages.exec label.1 = (label.2, pages')

variable {p page : Nat}

theorem map_of_ne (frame flags : Nat) (hne : page ≠ p) :
    (pages.map p frame flags).2 page = pages page := by
  unfold map
  cases pages p with
  | none => exact Function.update_of_ne hne _ _
  | some e => rfl

theorem unmap_of_ne (hne : page ≠ p) : (pages.unmap p).2 page = pages page := by
  unfold unmap
  cases pages p with
  | none => rfl
  | some e =>
    by_cases hprotected : IsProtected e
    · simp only [hprotected, if_true]
    · simp only [hprotected, if_false]
      exact Function.update_of_ne hne _ _

theorem setFlags_of_ne (update : Nat → Nat) (hne : page ≠ p) :
    pages.setFlags p update page = pages page := by
  unfold setFlags
  cases pages p with
  | none => rfl
  | some e => exact Function.update_of_ne hne _ _

theorem exec_of_ne (call : Call) (hne : page ≠ pageOf call.virtAddress) :
    (pages.exec call).2 page = pages page := by
  cases call with
  | map physAddress virtAddress flags table => exact map_of_ne pages physAddress flags hne
  | unmap virtAddress => exact unmap_of_ne pages hne
  | protectPage virtAddress => exact setFlags_of_ne pages (· ||| PAGE_WRITE_PROTECTED) hne
  | unprotectPage virtAddress =>
    exact setFlags_of_ne pages (· &&& (0xFFF - PAGE_WRITE_PROTECTED)) hne

end PageMap

end HuyaOS
