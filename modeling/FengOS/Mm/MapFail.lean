import FengOS.Mm.Copy

/-!
# `map_page` without free pages

Without a free page `get_zeroed_page` returns a null pointer and the assertion only prints. `map_page` enters it and takes it
for its next table.
-/

namespace FengOS.Mm

open FengOS.Lib

def zeroedOrNull (s : Machine) : Nat × Machine :=
  match s.alloc.alloc 0 with
  | (none, alloc) => (0, { s with alloc := alloc })
  | (some page, alloc) => (virtual page, ⟨memset s.mem (virtual page) 0 pageSize, alloc⟩)

/-- The two branches of a level. Reading an entry through the null pointer is an error. -/
def levelOrNull (old : Nat → Nat) (s : Machine) (table ind attr : Nat) : Except Machine (Nat × Machine) :=
  if table = 0 then .error s
  else if entry s.mem table ind = 0 then
    let (next, s) := zeroedOrNull s
    .ok (next, { s with mem := s.mem.store (table + 8 * ind) (toPhy next ||| attr) 8 })
  else .ok (old (entry s.mem table ind), s)

def tableOrNull (s : Machine) (table ind attr : Nat) : Except Machine (Nat × Machine) :=
  levelOrNull (fun e => toVir (e &&& pageMask)) s table ind attr

def pageOrNull (s : Machine) (pt ind attr : Nat) : Except Machine (Nat × Machine) :=
  levelOrNull (fun e => toVir e &&& pageMask) s pt ind attr

/-- `map_page`, which reads a missing table or returns. -/
def mapPageOrNull (s : Machine) (pgd ustart : Nat) : Except Machine (Nat × Machine) := do
  let ustart := ustart &&& (2 ^ 48 - 1)
  let (pdpt, s) ← tableOrNull s pgd (ustart / 2 ^ 39) pml4eAttr
  let ustart := ustart &&& (2 ^ 39 - 1)
  let (pd, s) ← tableOrNull s pdpt (ustart / 2 ^ 30) pdpteAttr
  let ustart := ustart &&& (2 ^ 30 - 1)
  let (pt, s) ← tableOrNull s pd (ustart / 2 ^ 21) pdeAttr
  let ustart := ustart &&& (2 ^ 21 - 1)
  pageOrNull s pt (ustart / 2 ^ 12) pteAttr

/-! ## What is asked of it -/

/-- `map_page` returns 0 and reads no missing table, mappings stay, and the tables and pages are frames not free. -/
def FailsCleanly (s : Machine) (pgd u : Nat) : Prop :=
  ∃ s', mapPageOrNull s pgd u = .ok (0, s') ∧
    (∀ a < 2 ^ 47, ∀ x, translate s.mem pgd a = some x → translate s'.mem pgd a = some x) ∧ Backed s' pgd

/-- If a page is missing at one of the levels, `map_page` fails cleanly. -/
def SurvivesExhaustion (s : Machine) (pgd u : Nat) : Prop := mapPage s pgd u = none → FailsCleanly s pgd u

/-- The number of pages that are missing along the indices: all from the first empty entry on. -/
def missingPages (mem : Mem) (table : Nat) : List Nat → Nat
  | [] => 0
  | i :: is =>
    if entry mem table i = 0 then is.length + 1 else missingPages mem (toVir (entry mem table i &&& pageMask)) is

end FengOS.Mm
