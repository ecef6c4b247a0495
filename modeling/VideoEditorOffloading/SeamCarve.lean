import VideoEditorOffloading.CheckedArrays
import VideoEditorOffloading.LayeredPaths

/-! # The seam carver

`SeamCarveEffect`: the table of path costs over an energy map, the walk back through the table,
and the removal of the pixels on the way. Energies are exact numbers. The elements of a matrix are
counted by an `int`, and no index the program computes is larger than the size of an array, so
`int` arithmetic is exact here; an index outside its array ends in an exception, `none`. -/
namespace SeamCarve

open CheckedArrays LayeredPaths

def MAX_VALUE : ℚ := (2 - (1 / 2) ^ 23) * 2 ^ 127

structure FloatMat where
  rows : ℕ
  cols : ℕ
  data : List ℚ
  size_eq : data.length = rows * cols
  fits : rows * cols < 2 ^ 31
  deriving DecidableEq

/-- A matrix of 8-bit pixels. Its pixels fit an array also when they are written with four
channels. -/
structure ByteMat where
  rows : ℕ
  cols : ℕ
  channels : ℕ
  data : List Int8
  channels_le : channels ≤ 4
  size_eq : data.length = rows * cols * channels
  fits : rows * cols * 4 < 2 ^ 31
  deriving DecidableEq

section Matrices

variable {α : Type}

/-- `Mat.get(0, 0, buff)` and `Mat.put(0, 0, buff)` copy as many elements as both sides have. -/
def copyInto (source target : List α) : List α :=
  source.take target.length ++ target.drop source.length

theorem copyInto_eq {source target : List α} (h : source.length = target.length) :
    copyInto source target = source := by
  rw [copyInto, ← h, List.take_length, h, List.drop_length, List.append_nil]

theorem length_copyInto (source target : List α) :
    (copyInto source target).length = target.length := by
  rw [copyInto, List.length_append, List.length_take, List.length_drop]
  omega

end Matrices

/-- `new Mat(size, CvType.CV_32FC1)` for a size that another matrix has. What it holds is not
specified; it is overwritten. -/
def FloatMat.sameSize (m : FloatMat) : FloatMat :=
  ⟨m.rows, m.cols, List.replicate (m.rows * m.cols) 0, List.length_replicate, m.fits⟩

theorem FloatMat.copyInto_data (m : FloatMat) :
    copyInto m.data (List.replicate (m.rows * m.cols) 0) = m.data :=
  copyInto_eq (by rw [List.length_replicate, m.size_eq])

theorem ByteMat.copyInto_data (m : ByteMat) :
    copyInto m.data (List.replicate (m.rows * m.cols * m.channels) 0) = m.data :=
  copyInto_eq (by rw [List.length_replicate, m.size_eq])

def FloatMat.put (m : FloatMat) (buff : List ℚ) : FloatMat :=
  { m with data := copyInto buff m.data, size_eq := by rw [length_copyInto, m.size_eq] }

def FloatMat.at (m : FloatMat) (row col : ℕ) : ℚ := m.data.getD (col + row * m.cols) 0

def intensity (map : List ℚ) (col row nCols : ℤ) : Option ℚ :=
  if col < 0 ∨ col ≥ nCols then some MAX_VALUE else get map (col + row * nCols)

def pathPixel (buffRaw : List ℚ) (rawCols cols : ℤ) (row : ℕ) (buffPath : List ℚ) (col : ℕ) :
    Option (List ℚ) := do
  let pixelIntensity ← get buffRaw (col + row * rawCols)
  let p1 ← intensity buffPath (col - 1) (row - 1) cols
  let p2 ← intensity buffPath col (row - 1) cols
  let p3 ← intensity buffPath (col + 1) (row - 1) cols
  let minIntensity := min p1 p2
  let minIntensity := min minIntensity p3
  set buffPath (col + row * cols) (pixelIntensity + minIntensity)

/-- The inner `some none` is the `null` for an empty map. The local variable `max` is written but
never read; it is left out. -/
def computePathIntensityMat (rawEnergyMap : FloatMat) : Option (Option FloatMat) := do
  let pathIntensityMap := rawEnergyMap.sameSize
  let buffRaw := copyInto rawEnergyMap.data
    (List.replicate (rawEnergyMap.rows * rawEnergyMap.cols) 0)
  let buffPath : List ℚ := List.replicate (pathIntensityMap.rows * pathIntensityMap.cols) 0
  if buffRaw.length = 0 ∨ buffPath.length = 0 then
    return none
  let buffPath ← forUp 0 pathIntensityMap.cols buffPath fun buffPath col => do
    set buffPath col (← get buffRaw col)
  let buffPath ← forUp 1 (pathIntensityMap.rows - 1) buffPath fun buffPath row =>
    forUp 0 pathIntensityMap.cols buffPath
      (pathPixel buffRaw rawEnergyMap.cols pathIntensityMap.cols row)
  return some (pathIntensityMap.put buffPath)

/-- `new Mat(new Size(original.width() - 1, original.height()), CvType.CV_8UC4)`. -/
def ByteMat.narrower (original : ByteMat) : ByteMat where
  rows := original.rows
  cols := original.cols - 1
  channels := 4
  data := List.replicate (original.rows * (original.cols - 1) * 4) 0
  channels_le := le_rfl
  size_eq := List.length_replicate
  fits := by
    refine lt_of_le_of_lt ?_ original.fits
    gcongr
    exact Nat.sub_le _ _

def ByteMat.put (m : ByteMat) (buff : List Int8) : ByteMat :=
  { m with data := copyInto buff m.data, size_eq := by rw [length_copyInto, m.size_eq] }

def unsigned (byte : Int8) : ℤ := if byte.toInt < 0 then byte.toInt + 256 else byte.toInt

/-- The two branches of `removePixel` that write the means with the right and with the left
neighbour. `neighbour` is where the neighbour is read, `target` where the means are written. -/
def average (original neo : List Int8) (byte1 byte2 byte3 neighbour target : ℤ) :
    Option (List Int8) := do
  let byte1N := unsigned (← get original neighbour)
  let byte2N := unsigned (← get original (neighbour + 1))
  let byte3N := unsigned (← get original (neighbour + 2))
  let neo ← set neo target (Int8.ofInt ((byte1 + byte1N) / 2))
  let neo ← set neo (target + 1) (Int8.ofInt ((byte2 + byte2N) / 2))
  set neo (target + 2) (Int8.ofInt ((byte3 + byte3N) / 2))

def removePixel (original neo : List Int8) (width row channels minCol : ℤ) :
    Option (List Int8) := do
  let originRowStart := row * channels * width
  let newRowStart := row * channels * (width - 1)
  let firstNum := minCol * channels
  let neo ← arraycopy original originRowStart neo newRowStart firstNum
  let originRowMid := originRowStart + (minCol + 1) * channels
  let newRowMid := newRowStart + minCol * channels
  let secondNum := (width - 1) * channels - firstNum
  let neo ← arraycopy original originRowMid neo newRowMid secondNum
  let leftPixel := minCol - 1
  let rightPixel := minCol + 1
  let byte1 := unsigned (← get original (originRowStart + minCol * channels))
  let byte2 := unsigned (← get original (originRowStart + minCol * channels + 1))
  let byte3 := unsigned (← get original (originRowStart + minCol * channels + 2))
  let neo ← if rightPixel < width then
      average original neo byte1 byte2 byte3 (originRowStart + rightPixel * channels)
        (newRowStart + minCol * channels)
    else some neo
  if leftPixel ≥ 0 then
    average original neo byte1 byte2 byte3 (originRowStart + leftPixel * channels)
      (newRowStart + leftPixel * channels)
  else some neo

structure Walk where
  minCol : ℤ
  buffNew : List Int8
  /-- History of the columns passed to `removePixel`. Nothing reads it. -/
  removed : List ℤ

def adjust (p1 p2 p3 : ℚ) (minCol : ℤ) : ℤ :=
  if p1 < p2 ∧ p1 < p3 then minCol - 1
  else if p3 < p1 ∧ p3 < p2 then minCol + 1
  else minCol

def walkRow (buffPath : List ℚ) (mapCols : ℤ) (buffOrigin : List Int8) (width channels : ℤ)
    (walk : Walk) (row : ℕ) : Option Walk := do
  let p1 ← intensity buffPath (walk.minCol - 1) row mapCols
  let p2 ← intensity buffPath walk.minCol row mapCols
  let p3 ← intensity buffPath (walk.minCol + 1) row mapCols
  let minCol := adjust p1 p2 p3 walk.minCol
  let buffNew ← removePixel buffOrigin walk.buffNew width row channels minCol
  return ⟨minCol, buffNew, walk.removed ++ [minCol]⟩

/-- The column of the smallest element of the last row, the leftmost one. -/
def findMinCol (buffPath : List ℚ) (importanceMap : FloatMat) : Option ℤ := do
  let minImportance ← get buffPath ((importanceMap.rows - 1) * importanceMap.cols)
  let found ← forUp 1 (importanceMap.cols - 1) ((0 : ℤ), minImportance) fun found col => do
    let currPixel ← get buffPath ((importanceMap.rows - 1) * importanceMap.cols + col)
    if currPixel < found.2 then return ((col : ℤ), currPixel)
    return found
  return found.1

/-- The new matrix and the columns passed to `removePixel`, or the inner `some none` for `null`.
A matrix cannot have a negative width. -/
def removeLeastImportantPath (original : ByteMat) (importanceMap : FloatMat) :
    Option (Option (ByteMat × List ℤ)) := do
  if original.cols = 0 then failure
  let newMat := original.narrower
  let buffPath := copyInto importanceMap.data
    (List.replicate (importanceMap.rows * importanceMap.cols) 0)
  let buffOrigin := copyInto original.data
    (List.replicate (original.rows * original.cols * original.channels) 0)
  let buffNew := List.replicate (newMat.rows * newMat.cols * newMat.channels) 0
  if buffPath.length = 0 ∨ buffOrigin.length = 0 then
    return none
  let minCol ← findMinCol buffPath importanceMap
  let buffNew ← removePixel buffOrigin buffNew original.cols (original.rows - 1) original.channels
    minCol
  let walk ← forDown (original.rows - 1) (Walk.mk minCol buffNew [minCol])
    (walkRow buffPath importanceMap.cols buffOrigin original.cols original.channels)
  return some (newMat.put walk.buffNew, walk.removed)

end SeamCarve
