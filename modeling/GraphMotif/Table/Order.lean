import GraphMotif.Table

/-!
# A canonical order of rows

The rows of a search result come in no particular order. To compare results, rows are sorted cell
by cell from left to right: nulls, then truth values, integers, binary64 numbers and texts, each
kind in its own order. Repeated rows are kept.
-/

namespace GraphMotif

/-- The place of a value's kind in the canonical order. -/
def Value.rank : Value → Nat
  | .null | .float .nan => 0
  | .bool _ => 1
  | .int _ => 2
  | .float _ => 3
  | .text _ => 4

/-- The canonical order of cells: by kind, then by value. -/
def Value.canonicalOrder (a b : Value) : Ordering :=
  if a.rank < b.rank then .lt
  else if b.rank < a.rank then .gt
  else (a.compare? b).getD .eq

/-- The canonical order of rows. -/
def Row.canonicalOrder : Row → Row → Ordering
  | [], [] => .eq
  | [], _ :: _ => .lt
  | _ :: _, [] => .gt
  | a :: as, b :: bs => (a.canonicalOrder b).then (Row.canonicalOrder as bs)

/-- The table with its rows in canonical order. -/
def Table.sorted {ν : Type} (t : Table ν) : Table ν where
  headings := t.headings
  rows := t.rows.mergeSort fun a b => (Row.canonicalOrder a b).isLE
  rectangular row hrow := t.rectangular row (List.mem_mergeSort.1 hrow)

end GraphMotif
