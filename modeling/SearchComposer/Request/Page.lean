import SearchComposer.Settings.Basic

/-!
# Pages

Results are fetched a page at a time. Pages are numbered from 1, and counts are words of 64 bits:
a number that does not fit is cut off at the greatest word.
-/

namespace SearchComposer

/-- A page of results. -/
structure Page where
  /-- Its number, from 1. -/
  number : UInt64
  /-- How many results a page has. -/
  size : UInt64
  deriving DecidableEq, Repr

namespace Page

/-- The greatest word. -/
def greatest : Nat := UInt64.size - 1

/-- A natural, cut off at the greatest word. -/
def saturated (n : Nat) : UInt64 := UInt64.ofNat (min n greatest)

/-- The first page. -/
def first (s : Settings) : Page := ⟨1, s.pageSize⟩

/-- How many results come before a page. -/
def offset (p : Page) : UInt64 :=
  saturated ((p.number.toNat - 1) * p.size.toNat)

/-- How many pages a number of results fills; none if pages are empty. -/
def count (p : Page) (total : UInt64) : UInt64 :=
  if p.size = 0 then 0 else saturated ((total.toNat + p.size.toNat - 1) / p.size.toNat)

/-- The number of the page nearest to a number among the pages that there are. The first page is
always there. -/
def nearest (p : Page) (number total : UInt64) : UInt64 :=
  max 1 (min number (max 1 (p.count total)))

end Page

end SearchComposer
