import ReversePolish.Linear.Elimination
import ReversePolish.Operator.Shaped

/-! # Linear algebra -/

namespace ReversePolish.LinearAlgebra

open Operator

/-- A vector of scalar arguments. -/
def composeVector : Evaluation := fun _ args => do
  let xs ← args.mapM (realArg "vec")
  match Value.ofComponents? xs with
  | some v => .ok v
  | none => .error (.internal (.componentCount xs.length))

/-- A matrix of row vectors. -/
def composeMatrix : Evaluation := fun _ args =>
  match args.mapM Value.components? with
  | none => .error (.internal .rowsNotVectors)
  | some rows =>
    match Value.ofRows? rows with
    | some m => .ok m
    | none => .error (.shapeMismatch (.rowCount rows.length))

def dot : Evaluation := fun _ => binary "dot" fun a b =>
  match a, b with
  | .vector d v, .vector e w =>
    if h : d = e then .ok (.real (RealVector.dot (h ▸ v) w)) else mismatched "dot" a b
  | _, _ => mismatched "dot" a b

def cross : Evaluation := fun _ => binary "cross" fun
  | .vector .three v, .vector .three w => .ok (.vector .three (RealVector.cross v w))
  | a, b => mismatched "cross" a b

def norm : Evaluation := fun _ => unary "norm" fun
  | .vector _ v => .ok (.real v.norm)
  | other => unexpected "norm" other

def normalize : Evaluation := fun _ => unary "normalize" fun
  | .vector d v =>
    match v.normalized? with
    | some w => .ok (.vector d w)
    | none => .error (.domain "normalize" .zeroVector)
  | other => unexpected "normalize" other

def transpose : Evaluation := fun _ => unary "transpose" fun
  | .matrix d m => .ok (.matrix d m.transpose)
  | other => unexpected "transpose" other

def determinant : Evaluation := fun _ => unary "det" fun
  | .matrix _ m => .ok (.real m.determinant)
  | other => unexpected "det" other

def inverse : Evaluation := fun _ => unary "minv" fun
  | .matrix d m =>
    match m.inverse? with
    | some inverse => .ok (.matrix d inverse)
    | none => .error (.domain "minv" .singular)
  | other => unexpected "minv" other

def category : String := "Linear algebra"

/-- As many scalars as a vector has components. -/
def scalarRow (d : Dimension) : Signature := List.replicate d.size .scalar

/-- As many vectors as a matrix has rows. -/
def vectorRows (d : Dimension) : Signature := List.replicate d.size (.of (.vector d))

def operators : List Operator := [
  { name := "vec2", category
    description := "Build a 2-vector from two scalars"
    examples := ["1 2 vec2"]
    signatures := [scalarRow .two], evaluate := composeVector },
  { name := "vec3", category
    description := "Build a 3-vector from three scalars"
    examples := ["1 2 3 vec3"]
    signatures := [scalarRow .three], evaluate := composeVector },
  { name := "vec4", category
    description := "Build a 4-vector from four scalars"
    examples := ["1 2 3 4 vec4"]
    signatures := [scalarRow .four], evaluate := composeVector },
  { name := "mat2", category
    description := "Build a 2x2 matrix from two row vectors"
    examples := ["[1, 2] [3, 4] mat2"]
    signatures := [vectorRows .two], evaluate := composeMatrix },
  { name := "mat3", category
    description := "Build a 3x3 matrix from three row vectors"
    examples := ["[1, 0, 0] [0, 1, 0] [0, 0, 1] mat3"]
    signatures := [vectorRows .three], evaluate := composeMatrix },
  { name := "mat4", category
    description := "Build a 4x4 matrix from four row vectors"
    signatures := [vectorRows .four], evaluate := composeMatrix },
  { name := "dot", category
    description := "Dot product"
    examples := ["[1, 2, 3] [4, 5, 6] dot"]
    signatures := [[.vector, .vector]], evaluate := dot },
  { name := "cross", category
    description := "Cross product of 3-vectors"
    examples := ["[1, 0, 0] [0, 1, 0] cross"]
    signatures := [[.of (.vector .three), .of (.vector .three)]], evaluate := cross },
  { name := "norm", aliases := ["len"], category
    description := "Euclidean length"
    examples := ["[3, 4] norm"]
    signatures := [[.vector]], evaluate := norm },
  { name := "normalize", category
    description := "Unit vector in the same direction"
    examples := ["[3, 4] normalize"]
    signatures := [[.vector]], evaluate := normalize },
  { name := "transpose", category
    description := "Matrix transpose"
    examples := ["[[1, 2], [3, 4]] transpose"]
    signatures := [[.matrix]], evaluate := transpose },
  { name := "det", category
    description := "Matrix determinant"
    examples := ["[[4, 7], [2, 6]] det"]
    signatures := [[.matrix]], evaluate := determinant },
  { name := "minv", category
    description := "Matrix inverse"
    examples := ["[[4, 7], [2, 6]] minv"]
    signatures := [[.matrix]], evaluate := inverse }]

end ReversePolish.LinearAlgebra
