import Mba.Catalog.Basic

/-!
# The standard catalog

Mixed Boolean-arithmetic identities: each template computes its operator on all words of all widths,
from additions, subtractions, small multiples and bitwise operators.
-/

namespace Mba.Catalog

/-- Ways to compute `x + y`. -/
def addTemplates : List Template := [
  ⟨"(x | y) + y - (~x & y)",
    [.binary .or .x .y, .binary .add (.tmp 0) .y, .unary .not .x, .binary .and (.tmp 2) .y,
      .binary .sub (.tmp 1) (.tmp 3)]⟩,
  ⟨"(x | y) + (~x | y) - ~x",
    [.binary .or .x .y, .unary .not .x, .binary .or (.tmp 1) .y, .binary .add (.tmp 0) (.tmp 2),
      .binary .sub (.tmp 3) (.tmp 1)]⟩,
  ⟨"y - ~x - 1",
    [.unary .not .x, .binary .sub .y (.tmp 0), .binary .sub (.tmp 1) (.lit 1)]⟩,
  ⟨"2*(x | y) - (~x & y) - (x & ~y)",
    [.binary .or .x .y, .binary .mul (.lit 2) (.tmp 0), .unary .not .x, .binary .and (.tmp 2) .y,
      .binary .sub (.tmp 1) (.tmp 3), .unary .not .y, .binary .and .x (.tmp 5),
      .binary .sub (.tmp 4) (.tmp 6)]⟩,
  ⟨"-~x - ~y - 2",
    [.unary .not .x, .binary .sub (.lit 0) (.tmp 0), .unary .not .y,
      .binary .sub (.tmp 1) (.tmp 2), .binary .sub (.tmp 3) (.lit 2)]⟩,
  ⟨"(x ^ y) + 2*y - 2*(~x & y)",
    [.binary .xor .x .y, .binary .mul (.lit 2) .y, .binary .add (.tmp 0) (.tmp 1), .unary .not .x,
      .binary .and (.tmp 3) .y, .binary .mul (.lit 2) (.tmp 4), .binary .sub (.tmp 2) (.tmp 5)]⟩,
  ⟨"(x ^ y) + 2*(~x | y) - 2*~x",
    [.binary .xor .x .y, .unary .not .x, .binary .or (.tmp 1) .y, .binary .mul (.lit 2) (.tmp 2),
      .binary .add (.tmp 0) (.tmp 3), .binary .mul (.lit 2) (.tmp 1),
      .binary .sub (.tmp 4) (.tmp 5)]⟩,
  ⟨"-(x ^ y) + 2*y + 2*(x & ~y)",
    [.binary .xor .x .y, .binary .mul (.lit 2) .y, .binary .sub (.tmp 1) (.tmp 0), .unary .not .y,
      .binary .and .x (.tmp 3), .binary .mul (.lit 2) (.tmp 4), .binary .add (.tmp 2) (.tmp 5)]⟩,
  ⟨"y + (x & ~y) + (x & y)",
    [.unary .not .y, .binary .and .x (.tmp 0), .binary .add .y (.tmp 1), .binary .and .x .y,
      .binary .add (.tmp 2) (.tmp 3)]⟩,
  ⟨"(~x & y) + (x & ~y) + 2*(x & y)",
    [.unary .not .x, .binary .and (.tmp 0) .y, .unary .not .y, .binary .and .x (.tmp 2),
      .binary .add (.tmp 1) (.tmp 3), .binary .and .x .y, .binary .mul (.lit 2) (.tmp 5),
      .binary .add (.tmp 4) (.tmp 6)]⟩,
  ⟨"2*y - ~x + ~y",
    [.binary .mul (.lit 2) .y, .unary .not .x, .binary .sub (.tmp 0) (.tmp 1), .unary .not .y,
      .binary .add (.tmp 2) (.tmp 3)]⟩,
  ⟨"-(x | ~y) - ~x + (x & y) - 2",
    [.unary .not .y, .binary .or .x (.tmp 0), .binary .sub (.lit 0) (.tmp 1), .unary .not .x,
      .binary .sub (.tmp 2) (.tmp 3), .binary .and .x .y, .binary .add (.tmp 4) (.tmp 5),
      .binary .sub (.tmp 6) (.lit 2)]⟩,
  ⟨"2*y - (~x & y) + (x & ~y)",
    [.binary .mul (.lit 2) .y, .unary .not .x, .binary .and (.tmp 1) .y,
      .binary .sub (.tmp 0) (.tmp 2), .unary .not .y, .binary .and .x (.tmp 4),
      .binary .add (.tmp 3) (.tmp 5)]⟩,
  ⟨"3*(x | ~y) + (~x | y) - 2*~y - 2*~(x ^ y)",
    [.unary .not .y, .binary .or .x (.tmp 0), .binary .mul (.lit 3) (.tmp 1), .unary .not .x,
      .binary .or (.tmp 3) .y, .binary .add (.tmp 2) (.tmp 4), .binary .mul (.lit 2) (.tmp 0),
      .binary .sub (.tmp 5) (.tmp 6), .binary .xor .x .y, .unary .not (.tmp 8),
      .binary .mul (.lit 2) (.tmp 9), .binary .sub (.tmp 7) (.tmp 10)]⟩,
  ⟨"(x | ~y) + (~x & y) - ~(x & y) + (x | y)",
    [.unary .not .y, .binary .or .x (.tmp 0), .unary .not .x, .binary .and (.tmp 2) .y,
      .binary .add (.tmp 1) (.tmp 3), .binary .and .x .y, .unary .not (.tmp 5),
      .binary .sub (.tmp 4) (.tmp 6), .binary .or .x .y, .binary .add (.tmp 7) (.tmp 8)]⟩,
  ⟨"2*~(x ^ y) + 3*(~x & y) + 3*(x & ~y) - 2*~(x & y)",
    [.binary .xor .x .y, .unary .not (.tmp 0), .binary .mul (.lit 2) (.tmp 1), .unary .not .x,
      .binary .and (.tmp 3) .y, .binary .mul (.lit 3) (.tmp 4), .binary .add (.tmp 2) (.tmp 5),
      .unary .not .y, .binary .and .x (.tmp 7), .binary .mul (.lit 3) (.tmp 8),
      .binary .add (.tmp 6) (.tmp 9), .binary .and .x .y, .unary .not (.tmp 11),
      .binary .mul (.lit 2) (.tmp 12), .binary .sub (.tmp 10) (.tmp 13)]⟩]

/-- Ways to compute `x - y`. -/
def subTemplates : List Template := [
  ⟨"x + ~y + 1",
    [.unary .not .y, .binary .add .x (.tmp 0), .binary .add (.tmp 1) (.lit 1)]⟩,
  ⟨"(x ^ y) + 2*(x | ~y) + 2",
    [.binary .xor .x .y, .unary .not .y, .binary .or .x (.tmp 1), .binary .mul (.lit 2) (.tmp 2),
      .binary .add (.tmp 0) (.tmp 3), .binary .add (.tmp 4) (.lit 2)]⟩,
  ⟨"(x & ~y) - (~x & y)",
    [.unary .not .y, .binary .and .x (.tmp 0), .unary .not .x, .binary .and (.tmp 2) .y,
      .binary .sub (.tmp 1) (.tmp 3)]⟩,
  ⟨"(x ^ y) - 2*(~x & y)",
    [.binary .xor .x .y, .unary .not .x, .binary .and (.tmp 1) .y, .binary .mul (.lit 2) (.tmp 2),
      .binary .sub (.tmp 0) (.tmp 3)]⟩]

/-- Ways to compute `x & y`. -/
def andTemplates : List Template := [
  ⟨"-(x | y) + x + y",
    [.binary .or .x .y, .binary .sub .x (.tmp 0), .binary .add (.tmp 1) .y]⟩,
  ⟨"(x | ~y) + y + 1",
    [.unary .not .y, .binary .or .x (.tmp 0), .binary .add (.tmp 1) .y,
      .binary .add (.tmp 2) (.lit 1)]⟩,
  ⟨"(x | y) - (~x & y) - (x & ~y)",
    [.binary .or .x .y, .unary .not .x, .binary .and (.tmp 1) .y, .binary .sub (.tmp 0) (.tmp 2),
      .unary .not .y, .binary .and .x (.tmp 4), .binary .sub (.tmp 3) (.tmp 5)]⟩,
  ⟨"-(~x & y) - ~y - 1",
    [.unary .not .x, .binary .and (.tmp 0) .y, .binary .sub (.lit 0) (.tmp 1), .unary .not .y,
      .binary .sub (.tmp 2) (.tmp 3), .binary .sub (.tmp 4) (.lit 1)]⟩,
  ⟨"-(x ^ y) + y + (x & ~y)",
    [.binary .xor .x .y, .binary .sub .y (.tmp 0), .unary .not .y, .binary .and .x (.tmp 2),
      .binary .add (.tmp 1) (.tmp 3)]⟩,
  ⟨"-~(x & y) + y + ~y",
    [.binary .and .x .y, .unary .not (.tmp 0), .binary .sub .y (.tmp 1), .unary .not .y,
      .binary .add (.tmp 2) (.tmp 3)]⟩,
  ⟨"-~(x & y) + (~x | y) + (x & ~y)",
    [.binary .and .x .y, .unary .not (.tmp 0), .unary .not .x, .binary .or (.tmp 2) .y,
      .binary .sub (.tmp 3) (.tmp 1), .unary .not .y, .binary .and .x (.tmp 5),
      .binary .add (.tmp 4) (.tmp 6)]⟩]

/-- Ways to compute `x | y`. -/
def orTemplates : List Template := [
  ⟨"(x ^ y) + y - (~x & y)",
    [.binary .xor .x .y, .binary .add (.tmp 0) .y, .unary .not .x, .binary .and (.tmp 2) .y,
      .binary .sub (.tmp 1) (.tmp 3)]⟩,
  ⟨"(x ^ y) + (~x | y) - ~x",
    [.binary .xor .x .y, .unary .not .x, .binary .or (.tmp 1) .y, .binary .add (.tmp 0) (.tmp 2),
      .binary .sub (.tmp 3) (.tmp 1)]⟩,
  ⟨"~(x & y) + y - ~x",
    [.binary .and .x .y, .unary .not (.tmp 0), .binary .add (.tmp 1) .y, .unary .not .x,
      .binary .sub (.tmp 2) (.tmp 3)]⟩,
  ⟨"x + y - (x & y)",
    [.binary .add .x .y, .binary .and .x .y, .binary .sub (.tmp 0) (.tmp 1)]⟩,
  ⟨"y + (x | ~y) - ~(x ^ y)",
    [.unary .not .y, .binary .or .x (.tmp 0), .binary .add .y (.tmp 1), .binary .xor .x .y,
      .unary .not (.tmp 3), .binary .sub (.tmp 2) (.tmp 4)]⟩,
  ⟨"(~x & y) + (x & ~y) + (x & y)",
    [.unary .not .x, .binary .and (.tmp 0) .y, .unary .not .y, .binary .and .x (.tmp 2),
      .binary .add (.tmp 1) (.tmp 3), .binary .and .x .y, .binary .add (.tmp 4) (.tmp 5)]⟩]

/-- Ways to compute `x ^ y`. -/
def xorTemplates : List Template := [
  ⟨"(x | y) - y + (~x & y)",
    [.unary .not .x, .binary .or .x .y, .binary .and (.tmp 0) .y, .binary .sub (.tmp 1) .y,
      .binary .add (.tmp 3) (.tmp 2)]⟩,
  ⟨"(x | y) - (~x | y) + ~x",
    [.binary .or .x .y, .unary .not .x, .binary .or (.tmp 1) .y, .binary .sub (.tmp 0) (.tmp 2),
      .binary .add (.tmp 3) (.tmp 1)]⟩,
  ⟨"-(~x | y) + (~x & y) - 1",
    [.unary .not .x, .binary .or (.tmp 0) .y, .binary .and (.tmp 0) .y,
      .binary .sub (.tmp 2) (.tmp 1), .binary .sub (.tmp 3) (.lit 1)]⟩,
  ⟨"2*(x | y) - y - x",
    [.binary .or .x .y, .binary .mul (.lit 2) (.tmp 0), .binary .sub (.tmp 1) .y,
      .binary .sub (.tmp 2) .x]⟩,
  ⟨"-(~x | y) - (x | ~y) - 2",
    [.unary .not .x, .binary .or (.tmp 0) .y, .binary .sub (.lit 0) (.tmp 1), .unary .not .y,
      .binary .or .x (.tmp 3), .binary .sub (.tmp 2) (.tmp 4), .binary .sub (.tmp 5) (.lit 2)]⟩,
  ⟨"-y + 2*(~x & y) + x",
    [.unary .not .x, .binary .and (.tmp 0) .y, .binary .mul (.lit 2) (.tmp 1),
      .binary .sub (.tmp 2) .y, .binary .add (.tmp 3) .x]⟩,
  ⟨"x - y - 2*(x | ~y) - 2",
    [.binary .sub .x .y, .unary .not .y, .binary .or .x (.tmp 1), .binary .mul (.lit 2) (.tmp 2),
      .binary .sub (.tmp 0) (.tmp 3), .binary .sub (.tmp 4) (.lit 2)]⟩,
  ⟨"-(~x | y) + 2*(~x & y) + (x | ~y)",
    [.unary .not .x, .binary .or (.tmp 0) .y, .binary .and (.tmp 0) .y,
      .binary .mul (.lit 2) (.tmp 2), .binary .sub (.tmp 3) (.tmp 1), .unary .not .y,
      .binary .or .x (.tmp 5), .binary .add (.tmp 4) (.tmp 6)]⟩,
  ⟨"y + (x & ~y) - (x & y)",
    [.unary .not .y, .binary .and .x (.tmp 0), .binary .add .y (.tmp 1), .binary .and .x .y,
      .binary .sub (.tmp 2) (.tmp 3)]⟩,
  ⟨"y + ~y - ~(x ^ y)",
    [.unary .not .y, .binary .add .y (.tmp 0), .binary .xor .x .y, .unary .not (.tmp 2),
      .binary .sub (.tmp 1) (.tmp 3)]⟩,
  ⟨"(x | ~y) + (~x | y) - 2*~(x | y) - 2*(x & y)",
    [.unary .not .y, .binary .or .x (.tmp 0), .unary .not .x, .binary .or (.tmp 2) .y,
      .binary .add (.tmp 1) (.tmp 3), .binary .or .x .y, .unary .not (.tmp 5),
      .binary .mul (.lit 2) (.tmp 6), .binary .sub (.tmp 4) (.tmp 7), .binary .and .x .y,
      .binary .mul (.lit 2) (.tmp 9), .binary .sub (.tmp 8) (.tmp 10)]⟩,
  ⟨"(x | ~y) - 3*~(x | y) + 2*~x - y",
    [.unary .not .y, .binary .or .x (.tmp 0), .binary .or .x .y, .unary .not (.tmp 2),
      .binary .mul (.lit 3) (.tmp 3), .binary .sub (.tmp 1) (.tmp 4), .unary .not .x,
      .binary .mul (.lit 2) (.tmp 6), .binary .add (.tmp 5) (.tmp 7), .binary .sub (.tmp 8) .y]⟩,
  ⟨"(~x | y) + (x & ~y) - ~(x ^ y)",
    [.unary .not .x, .binary .or (.tmp 0) .y, .unary .not .y, .binary .and .x (.tmp 2),
      .binary .add (.tmp 1) (.tmp 3), .binary .xor .x .y, .unary .not (.tmp 5),
      .binary .sub (.tmp 4) (.tmp 6)]⟩,
  ⟨"-(x | ~y) + (~x | y) - 2*~(x | y) + 2*~y",
    [.unary .not .y, .binary .or .x (.tmp 0), .unary .not .x, .binary .or (.tmp 2) .y,
      .binary .sub (.tmp 3) (.tmp 1), .binary .or .x .y, .unary .not (.tmp 5),
      .binary .mul (.lit 2) (.tmp 6), .binary .sub (.tmp 4) (.tmp 7),
      .binary .mul (.lit 2) (.tmp 0), .binary .add (.tmp 8) (.tmp 9)]⟩,
  ⟨"-(x | ~y) + ~y + (x & ~y) + y",
    [.unary .not .y, .binary .or .x (.tmp 0), .binary .sub (.tmp 0) (.tmp 1),
      .binary .and .x (.tmp 0), .binary .add (.tmp 2) (.tmp 3), .binary .add (.tmp 4) .y]⟩]

/-- The templates of the standard catalog. -/
def standardTemplates : BinaryOp → List Template
  | .add => addTemplates
  | .sub => subTemplates
  | .and => andTemplates
  | .or => orTemplates
  | .xor => xorTemplates
  | .mul | .div | .rem | .shl | .shr => []

theorem wellShaped_standardTemplates (op : BinaryOp) :
    ∀ t ∈ standardTemplates op, t.WellShaped := by
  cases op <;> decide

/-- The catalog of the built-in identities. -/
def standard : Catalog := ⟨standardTemplates, wellShaped_standardTemplates⟩

end Mba.Catalog
