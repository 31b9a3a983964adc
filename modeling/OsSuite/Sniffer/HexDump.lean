import OsSuite.Lib.CString
import OsSuite.Lib.Numeral
import OsSuite.Sniffer.Headers

/-!
# HexDump — the complete frame as text

`CompleteFrame` of `func.c`. One loop over the bytes prints the offset at
the start of a line, the byte, a gap after the eighth one, and collects
the characters of the line in a buffer that is used again for the next
line; at the end of a line, and at the end of the frame, it prints the
buffer. The last line is filled up with blanks.

A line of the dump is read by its columns: eight digits, the bytes up to
the first bar, the characters up to the last one. `dump_faithful` says
that every line can be read like this and that together they are the
frame.
-/

namespace OsSuite.Sniffer

open Decode

/-! ## The code -/

/-- `isprint`, in the locale that a program starts in. -/
def isprint (b : UInt8) : Bool := 0x20 ≤ b && b ≤ 0x7e

/-- The character of a byte in the right part of the dump. -/
def asciiChar (b : UInt8) : Char := if isprint b then Char.ofNat b.toNat else '.'

/-- What has been printed, and the buffer `ascii`. -/
structure Dump where
  out : List Char
  ascii : Nat → Char

namespace Dump

/-- `printf` -/
def print (d : Dump) (s : List Char) : Dump := { d with out := d.out ++ s }

/-- `ascii[i] = c` -/
def setAscii (d : Dump) (i : Nat) (c : Char) : Dump :=
  { d with ascii := Function.update d.ascii i c }

/-- `%s` of `ascii`, which has `per_line+1` characters (`per_line` is 16). -/
def text (d : Dump) : List Char := cut 17 d.ascii

end Dump

/-- The gap after the eighth column. -/
def gap (j : Nat) : List Char := if j = 7 then [' '] else []

/-- The columns that are left over, from `n` on. -/
def padding (n : Nat) : List Char :=
  (List.range' n (16 - n)).flatMap fun j => [' ', ' ', ' '] ++ gap j

/-- `%08x: ` -/
def offsetText (i : Nat) : List Char := numeral 16 8 i ++ [':', ' ']

/-- `%02x ` -/
def byteText (b : UInt8) : List Char := numeral 16 2 b.toNat ++ [' ']

/-- The first statements of the loop, for byte `i`. -/
def openByte (packet : Nat → UInt8) (d : Dump) (i : Nat) : Dump :=
  let d := if i % 16 = 0 then d.print (offsetText i) else d
  let d := d.print (byteText (packet i))
  let d := if i % 16 = 7 then d.print [' '] else d
  d.setAscii (i % 16) (asciiChar (packet i))

/-- The end of a line, after byte `i`. -/
def closeLine (len : Nat) (d : Dump) (i : Nat) : Dump :=
  let d := d.setAscii (i % 16 + 1) nul
  let d := if i = len - 1 then d.print (padding (i % 16 + 1)) else d
  d.print ([' ', '|'] ++ d.text ++ ['|', '\n'])

/-- The body of the loop, for byte `i`. -/
def dumpByte (packet : Nat → UInt8) (len : Nat) (d : Dump) (i : Nat) : Dump :=
  if (i + 1) % 16 = 0 ∨ i = len - 1 then closeLine len (openByte packet d i) i
  else openByte packet d i

/-- The loop, for the first `n` bytes. -/
def dumpBytes (packet : Nat → UInt8) (len : Nat) (ascii : Nat → Char) (n : Nat) : Dump :=
  (List.range n).foldl (dumpByte packet len) ⟨[], ascii⟩

/-- The lines below the title; `ascii` is what the buffer holds on
entry. -/
def dumpBody (packet : Nat → UInt8) (len : BitVec 32) (ascii : Nat → Char) : List Char :=
  (dumpBytes packet len.toInt.toNat ascii len.toInt.toNat).out

/-- The title of the dump. -/
def dumpTitle (len : Int) : List Char :=
  ("\n--- COMPLETE FRAME HEX DUMP (" ++ toString len ++ " bytes) ---\n" ++
    "Offset(h) 0  1  2  3  4  5  6  7  8  9  A  B  C  D  E  F   ASCII\n" ++
    "----------------------------------------------------------------------\n").toList

/-- `CompleteFrame`: all that it prints. What it reads is
`completeFrame`. -/
def completeFrameText (packet : Nat → UInt8) (len : BitVec 32) (ascii : Nat → Char) : List Char :=
  if len.toInt ≤ 0 then [] else dumpTitle len.toInt ++ dumpBody packet len ascii

/-! ## How a dump is read -/

/-- The column of the first bar. -/
def barColumn (l : List Char) : Nat := l.idxOf '|'

/-- What stands between the offset and the first bar. -/
def hexField (l : List Char) : List Char := (l.take (barColumn l)).drop 10

/-- The bytes of hexadecimal columns, whatever the blanks between them. -/
def readPairs : List Char → List UInt8
  | a :: b :: l => UInt8.ofNat (numVal 16 [a, b]) :: readPairs l
  | _ => []

def readHex (l : List Char) : List UInt8 := readPairs (l.filter fun c => c ≠ ' ')

/-- What stands between the first and the last bar. -/
def asciiField (l : List Char) : List Char := (l.drop (barColumn l + 1)).dropLast

/-- **Line `k` of a dump of the bytes `bs`**: the offset in eight digits, the
bytes, the bar in column 60, and one character for each byte. -/
structure DumpLine (k : Nat) (bs : List UInt8) (l : List Char) : Prop where
  offset : l.take 8 = numeral 16 8 (16 * k)
  digits : (numeral 16 8 (16 * k)).length = 8
  hex : readHex (hexField l) = bs
  bar : barColumn l = 60
  ascii : asciiField l = bs.map asciiChar
  closed : l.getLast? = some '|'
  single : '\n' ∉ l

/-! ## The text of a line -/

/-- The first `n` columns of the line that starts at byte `o`. -/
def cells (packet : Nat → UInt8) (o n : Nat) : List Char :=
  (List.range n).flatMap fun j => byteText (packet (o + j)) ++ gap j

/-- The line of `n` bytes that starts at byte `o`. -/
def lineText (packet : Nat → UInt8) (o n : Nat) : List Char :=
  offsetText o ++ cells packet o n ++ padding n ++ [' ', '|'] ++
    ((List.range n).map fun j => asciiChar (packet (o + j))) ++ ['|']

/-- What is printed of a line before it is finished. -/
def opened (packet : Nat → UInt8) (o : Nat) : Nat → List Char
  | 0 => []
  | n + 1 => offsetText o ++ cells packet o (n + 1)

section
variable {packet : Nat → UInt8} {o n : Nat}

theorem cells_succ : cells packet o (n + 1) = cells packet o n ++ (byteText (packet (o + n)) ++ gap n) := by
  simp [cells, List.range_succ]

theorem opened_succ : opened packet o (n + 1) =
    opened packet o n ++ (if n = 0 then offsetText o else []) ++ byteText (packet (o + n)) ++ gap n := by
  cases n with
  | zero => simp [opened, cells]
  | succ n => simp [opened, cells_succ, List.append_assoc]

theorem digitChar_ne {d : Nat} (h : d < 16) :
    d.digitChar ≠ ' ' ∧ d.digitChar ≠ '|' ∧ d.digitChar ≠ '\n' := by
  interval_cases d <;> decide

/-- No digit is a blank, a bar or the end of a line. -/
theorem numeral_clean {w k : Nat} {c : Char} (h : c ∈ numeral 16 w k) :
    c ≠ ' ' ∧ c ≠ '|' ∧ c ≠ '\n' := by
  obtain ⟨d, hd, rfl⟩ := mem_numeral (by decide) h
  exact digitChar_ne hd

theorem length_byteNumeral (b : UInt8) : (numeral 16 2 b.toNat).length = 2 :=
  length_numeral_of_lt (by decide) (by decide) b.toNat_lt

theorem length_cells (hn : n ≤ 16) :
    (cells packet o n).length = 3 * n + if 8 ≤ n then 1 else 0 := by
  induction n with
  | zero => rfl
  | succ n ih =>
      have hbyte : (byteText (packet (o + n))).length = 3 := by
        rw [byteText, List.length_append, length_byteNumeral]
        rfl
      rw [cells_succ, List.length_append, List.length_append, ih (by omega), hbyte, gap]
      split <;> split <;> split <;> simp <;> omega

theorem length_padding (hn : n ≤ 16) :
    (padding n).length = 3 * (16 - n) + if 8 ≤ n then 0 else 1 := by
  revert n
  decide

/-- **The columns before the bar are the same number on every line.** -/
theorem length_columns (hn : n ≤ 16) :
    (cells packet o n ++ padding n).length = 49 := by
  rw [List.length_append, length_cells hn, length_padding hn]
  split <;> omega

/-- Columns and padding hold digits and blanks. -/
theorem columns_clean {c : Char} (h : c ∈ cells packet o n ++ padding n) : c ≠ '|' ∧ c ≠ '\n' := by
  have hblank : ' ' ≠ '|' ∧ ' ' ≠ '\n' := by decide
  have hgap : ∀ j, c ∈ gap j → c ≠ '|' ∧ c ≠ '\n' := by
    intro j hc
    unfold gap at hc
    split at hc
    · rw [List.mem_singleton] at hc
      rw [hc]
      exact hblank
    · cases hc
  rcases List.mem_append.mp h with h | h
  · obtain ⟨j, -, hc⟩ := List.mem_flatMap.mp h
    rcases List.mem_append.mp hc with hc | hc
    · rcases List.mem_append.mp hc with hc | hc
      · exact (numeral_clean hc).2
      · rw [List.mem_singleton] at hc
        rw [hc]
        exact hblank
    · exact hgap j hc
  · obtain ⟨j, -, hc⟩ := List.mem_flatMap.mp h
    rcases List.mem_append.mp hc with hc | hc
    · have : c = ' ' := by simpa using hc
      rw [this]
      exact hblank
    · exact hgap j hc

/-! ## Reading a line back -/

/-- A byte is read as it was written. -/
theorem readPairs_bytes (bs : List UInt8) :
    readPairs (bs.flatMap fun b => numeral 16 2 b.toNat) = bs := by
  induction bs with
  | nil => rfl
  | cons b bs ih =>
      obtain ⟨x, y, hxy⟩ := List.length_eq_two.mp (length_byteNumeral b)
      have hval := numVal_numeral (b := 16) (by decide) (by decide) 2 b.toNat
      rw [hxy] at hval
      rw [List.flatMap_cons, hxy, List.cons_append, List.cons_append, List.nil_append, readPairs,
        hval, ih, UInt8.ofNat_toNat]

theorem filter_gap (j : Nat) : (gap j).filter (fun c => c ≠ ' ') = [] := by
  unfold gap
  split <;> rfl

theorem filter_byteText (b : UInt8) :
    (byteText b).filter (fun c => c ≠ ' ') = numeral 16 2 b.toNat := by
  rw [byteText, List.filter_append]
  have hall : (numeral 16 2 b.toNat).filter (fun c => c ≠ ' ') = numeral 16 2 b.toNat :=
    List.filter_eq_self.mpr fun c hc => by simpa using (numeral_clean hc).1
  rw [hall]
  simp

theorem readHex_columns : readHex (cells packet o n ++ padding n ++ [' ']) =
    (List.range n).map fun j => packet (o + j) := by
  have hcells : (cells packet o n).filter (fun c => c ≠ ' ') =
      ((List.range n).map fun j => packet (o + j)).flatMap fun b => numeral 16 2 b.toNat := by
    rw [cells, List.filter_flatMap, List.flatMap_map]
    refine List.flatMap_congr fun j _ => ?_
    rw [List.filter_append, filter_byteText, filter_gap, List.append_nil]
  have hpad : (padding n).filter (fun c => c ≠ ' ') = [] := by
    rw [padding, List.filter_flatMap]
    refine List.flatMap_eq_nil_iff.mpr fun j _ => ?_
    rw [List.filter_append, filter_gap]
    rfl
  have hblank : [' '].filter (fun c => c ≠ ' ') = ([] : List Char) := by decide
  rw [readHex, List.filter_append, List.filter_append, hcells, hpad, hblank, List.append_nil,
    List.append_nil, readPairs_bytes]

/-- The characters on the right do not end the line or the buffer. -/
theorem asciiChar_clean (b : UInt8) : asciiChar b ≠ '\n' ∧ asciiChar b ≠ nul := by
  have hall : ∀ k : Fin 256,
      asciiChar (UInt8.ofNat k) ≠ '\n' ∧ asciiChar (UInt8.ofNat k) ≠ nul := by decide +kernel
  have hb := hall ⟨b.toNat, b.toNat_lt⟩
  rwa [UInt8.ofNat_toNat] at hb

/-- What stands before the bar, and the rest of the line. -/
theorem lineText_eq : lineText packet o n =
    (offsetText o ++ (cells packet o n ++ padding n ++ [' '])) ++
      '|' :: (((List.range n).map fun j => asciiChar (packet (o + j))) ++ ['|']) := by
  simp [lineText, List.append_assoc]

/-- **A line is read back.** -/
theorem dumpLine_lineText {k : Nat} (hk : 16 * k < 16 ^ 8) (hn : n ≤ 16) :
    DumpLine k ((List.range n).map fun j => packet (16 * k + j)) (lineText packet (16 * k) n) := by
  have hdigits : (numeral 16 8 (16 * k)).length = 8 :=
    length_numeral_of_lt (by decide) (by decide) hk
  have hoff : (offsetText (16 * k)).length = 10 := by
    rw [offsetText, List.length_append, hdigits]
    rfl
  have hlen : (offsetText (16 * k) ++
      (cells packet (16 * k) n ++ padding n ++ [' '])).length = 60 := by
    rw [List.length_append, hoff, List.length_append, length_columns hn]
    rfl
  have hclean : ∀ c ∈ offsetText (16 * k) ++ (cells packet (16 * k) n ++ padding n ++ [' ']),
      c ≠ '|' ∧ c ≠ '\n' := by
    intro c hc
    rcases List.mem_append.mp hc with hc | hc
    · rcases List.mem_append.mp hc with hc | hc
      · exact (numeral_clean hc).2
      · have : c = ':' ∨ c = ' ' := by simpa using hc
        rcases this with rfl | rfl <;> decide
    · rcases List.mem_append.mp hc with hc | hc
      · exact columns_clean hc
      · rw [List.mem_singleton] at hc
        rw [hc]
        decide
  have hbar : barColumn (lineText packet (16 * k) n) = 60 := by
    rw [barColumn, lineText_eq, List.idxOf_append_of_notMem fun h => (hclean _ h).1 rfl, hlen,
      List.idxOf_cons_self]
  refine ⟨?_, hdigits, ?_, hbar, ?_, ?_, ?_⟩
  · rw [lineText_eq, offsetText, List.append_assoc, List.append_assoc, List.take_left' hdigits]
  · rw [hexField, hbar, lineText_eq, List.take_left' hlen, List.drop_left' hoff, readHex_columns]
  · rw [asciiField, hbar, lineText_eq, ← List.drop_drop, List.drop_left' hlen, List.drop_one,
      List.tail_cons, List.dropLast_concat, List.map_map]
    rfl
  · rw [lineText, List.getLast?_concat]
  · intro h
    rw [lineText_eq, List.mem_append] at h
    rcases h with h | h
    · exact (hclean _ h).2 rfl
    · have : '\n' ∈ (List.range n).map fun j => asciiChar (packet (16 * k + j)) := by simpa using h
      obtain ⟨j, -, hj⟩ := List.mem_map.mp this
      exact (asciiChar_clean _).1 hj

end

/-! ## The loop -/

namespace Dump

@[simp] theorem print_out (d : Dump) (s : List Char) : (d.print s).out = d.out ++ s := rfl

@[simp] theorem print_ascii (d : Dump) (s : List Char) : (d.print s).ascii = d.ascii := rfl

@[simp] theorem setAscii_out (d : Dump) (i : Nat) (c : Char) : (d.setAscii i c).out = d.out := rfl

@[simp] theorem setAscii_ascii (d : Dump) (i : Nat) (c : Char) :
    (d.setAscii i c).ascii = Function.update d.ascii i c := rfl

/-- The buffer shows what has been stored before the end. -/
theorem text_eq {d : Dump} {n : Nat} {f : Nat → Char} (hn : n ≤ 16) (hend : d.ascii n = nul)
    (hf : ∀ j < n, d.ascii j = f j ∧ f j ≠ nul) : d.text = (List.range n).map f := by
  have hlen : ((List.range n).map f).length = n := by rw [List.length_map, List.length_range]
  refine cut_eq (by omega) ?_ ?_ fun _ => by rw [hlen, hend]
  · rw [hlen]
    exact List.map_congr_left fun j hj => (hf j (List.mem_range.mp hj)).1
  · intro hmem
    obtain ⟨j, hj, hnul⟩ := List.mem_map.mp hmem
    exact (hf j (List.mem_range.mp hj)).2 hnul

end Dump

section
variable {packet : Nat → UInt8} {len : Nat} {ascii : Nat → Char}

/-- The lines before line `q`, all of them full. -/
def fullLines (packet : Nat → UInt8) (q : Nat) : List Char :=
  (List.range q).flatMap fun k => lineText packet (16 * k) 16 ++ ['\n']

/-- **In the middle of a dump**, after `i` bytes: the full lines and the
beginning of the next one are printed, and the buffer holds its
characters. -/
structure Dumping (packet : Nat → UInt8) (i : Nat) (d : Dump) : Prop where
  out : d.out = fullLines packet (i / 16) ++ opened packet (16 * (i / 16)) (i % 16)
  ascii : ∀ j < i % 16, d.ascii j = asciiChar (packet (16 * (i / 16) + j))

/-- The first statements go on with the line. -/
theorem Dumping.opened {d : Dump} {i : Nat} (h : Dumping packet i d) :
    (openByte packet d i).out =
      fullLines packet (i / 16) ++ opened packet (16 * (i / 16)) (i % 16 + 1) ∧
    ∀ j < i % 16 + 1, (openByte packet d i).ascii j = asciiChar (packet (16 * (i / 16) + j)) := by
  have hi : 16 * (i / 16) + i % 16 = i := Nat.div_add_mod i 16
  constructor
  · have hout := h.out
    rw [opened_succ, hi]
    unfold openByte gap
    by_cases h0 : i % 16 = 0
    · rw [h0, Nat.add_zero] at hi
      simp [h0, hi, hout, List.append_assoc]
    · by_cases h7 : i % 16 = 7
      · simp [h7, hout, List.append_assoc]
      · simp [h0, h7, hout, List.append_assoc]
  · intro j hj
    have hascii : (openByte packet d i).ascii =
        Function.update d.ascii (i % 16) (asciiChar (packet i)) := by
      unfold openByte
      split <;> split <;> rfl
    rw [hascii]
    by_cases hj' : j = i % 16
    · rw [hj', hi]
      exact Function.update_self ..
    · rw [Function.update_of_ne hj', h.ascii j (by omega)]

/-- The end of a line of `n` bytes. -/
theorem finish_line {d : Dump} {o n : Nat} {pre : List Char} (hn : n ≤ 16) (hpos : 0 < n)
    (hout : d.out = pre ++ opened packet o n ++ padding n)
    (hascii : ∀ j < n, d.ascii j = asciiChar (packet (o + j))) (hend : d.ascii n = nul) :
    (d.print ([' ', '|'] ++ d.text ++ ['|', '\n'])).out =
      pre ++ (lineText packet o n ++ ['\n']) := by
  have htext : d.text = (List.range n).map fun j => asciiChar (packet (o + j)) :=
    Dump.text_eq hn hend fun j hj => ⟨hascii j hj, (asciiChar_clean _).2⟩
  obtain ⟨m, rfl⟩ := Nat.exists_eq_succ_of_ne_zero (Nat.pos_iff_ne_zero.mp hpos)
  rw [Dump.print_out, hout, htext]
  simp [Sniffer.opened, lineText, List.append_assoc]

/-- Byte `i` ends its line: the line is full, or the frame ends. -/
theorem Dumping.close {d : Dump} {i : Nat} (h : Dumping packet i d)
    (hi : i = len - 1 ∨ i % 16 + 1 = 16) :
    (closeLine len (openByte packet d i) i).out = fullLines packet (i / 16) ++
      (lineText packet (16 * (i / 16)) (i % 16 + 1) ++ ['\n']) := by
  obtain ⟨hout, hascii⟩ := h.opened
  have hn : i % 16 + 1 ≤ 16 := Nat.succ_le_of_lt (Nat.mod_lt i (by decide))
  have hkept : ∀ j < i % 16 + 1, Function.update (openByte packet d i).ascii (i % 16 + 1) nul j =
      asciiChar (packet (16 * (i / 16) + j)) := fun j hj => by
    rw [Function.update_of_ne (by omega), hascii j hj]
  unfold closeLine
  by_cases hlast : i = len - 1
  · simp only [if_pos hlast]
    refine finish_line hn (Nat.succ_pos _) ?_ hkept (Function.update_self ..)
    rw [Dump.print_out, Dump.setAscii_out, hout]
  · -- a full line needs no padding
    have hpad : padding (i % 16 + 1) = [] := by
      rw [hi.resolve_left hlast]
      rfl
    simp only [if_neg hlast]
    refine finish_line hn (Nat.succ_pos _) ?_ hkept (Function.update_self ..)
    rw [Dump.setAscii_out, hout, hpad, List.append_nil]

/-- **One byte inside the frame.** -/
theorem Dumping.step {d : Dump} {i : Nat} (h : Dumping packet i d) (hi : i ≠ len - 1) :
    Dumping packet (i + 1) (dumpByte packet len d i) := by
  unfold dumpByte
  by_cases hfull : (i + 1) % 16 = 0
  · -- the buffer starts again
    have hq : (i + 1) / 16 = i / 16 + 1 := by omega
    have hn : i % 16 + 1 = 16 := by omega
    rw [if_pos (Or.inl hfull)]
    refine ⟨?_, fun j hj => absurd hj (by omega)⟩
    rw [h.close (Or.inr hn), hq, hfull, hn, Sniffer.opened, List.append_nil, fullLines, fullLines,
      List.range_succ, List.flatMap_append, List.flatMap_singleton]
  · have hq : (i + 1) / 16 = i / 16 := by omega
    have hn : (i + 1) % 16 = i % 16 + 1 := by omega
    rw [if_neg (not_or.mpr ⟨hfull, hi⟩)]
    obtain ⟨hout, hascii⟩ := h.opened
    constructor
    · rw [hq, hn, hout]
    · rw [hq, hn]
      exact hascii

theorem dumpBytes_succ (i : Nat) : dumpBytes packet len ascii (i + 1) =
    dumpByte packet len (dumpBytes packet len ascii i) i := by
  rw [dumpBytes, List.range_succ, List.foldl_append]
  rfl

/-- The loop up to the last byte. -/
theorem dumping_dumpBytes {i : Nat} (hi : i < len) :
    Dumping packet i (dumpBytes packet len ascii i) := by
  induction i with
  | zero => exact ⟨rfl, fun j hj => absurd hj (Nat.not_lt_zero j)⟩
  | succ i ih =>
      rw [dumpBytes_succ]
      exact (ih (by omega)).step (by omega)

/-- The number of bytes on line `k`. -/
def lineLen (len k : Nat) : Nat := min 16 (len - 16 * k)

/-- **The whole dump**: all lines are full but the last one. -/
theorem dumpBytes_out (hlen : 0 < len) : (dumpBytes packet len ascii len).out =
    ((List.range ((len + 15) / 16)).map fun k => lineText packet (16 * k) (lineLen len k)).flatMap
      (· ++ ['\n']) := by
  obtain ⟨i, rfl⟩ := Nat.exists_eq_succ_of_ne_zero (Nat.pos_iff_ne_zero.mp hlen)
  have hlines : (i + 1 + 15) / 16 = i / 16 + 1 := by omega
  have hlast : lineLen (i + 1) (i / 16) = i % 16 + 1 := by
    unfold lineLen
    omega
  have hfull : (List.range (i / 16)).map (fun k => lineText packet (16 * k) (lineLen (i + 1) k)) =
      (List.range (i / 16)).map fun k => lineText packet (16 * k) 16 := by
    refine List.map_congr_left fun k hk => ?_
    have hk' := List.mem_range.mp hk
    rw [show lineLen (i + 1) k = 16 by unfold lineLen; omega]
  rw [dumpBytes_succ, dumpByte, if_pos (Or.inr (by omega)),
    (dumping_dumpBytes (Nat.lt_succ_self i)).close (Or.inl (by omega)), hlines, List.range_succ,
    List.map_append, hfull, List.flatMap_append, List.flatMap_map, List.map_singleton, hlast,
    List.flatMap_singleton]
  rfl

theorem lineLen_le (len k : Nat) : lineLen len k ≤ 16 := Nat.min_le_left ..

/-- The bytes of line `k`. -/
theorem drop_take_bytes (len k : Nat) : (((List.range len).map packet).drop (16 * k)).take 16 =
    (List.range (lineLen len k)).map fun j => packet (16 * k + j) := by
  apply List.ext_getElem
  · simp [lineLen]
  · intro j hj hj'
    simp

/-- The lines together are the frame. -/
theorem flatMap_lines (len : Nat) :
    ((List.range ((len + 15) / 16)).flatMap fun k =>
      (List.range (lineLen len k)).map fun j => packet (16 * k + j)) =
      (List.range len).map packet := by
  have hgen : ∀ q, ((List.range q).flatMap fun k =>
      (List.range (lineLen len k)).map fun j => packet (16 * k + j)) =
      (List.range (min len (16 * q))).map packet := by
    intro q
    induction q with
    | zero => simp
    | succ q ih =>
        have hsum : min len (16 * (q + 1)) = min len (16 * q) + lineLen len q := by
          unfold lineLen
          omega
        rw [List.range_succ, List.flatMap_append, ih, List.flatMap_singleton, hsum, List.range_add,
          List.map_append, List.map_map]
        congr 1
        refine List.map_congr_left fun j hj => ?_
        have hj' := List.mem_range.mp hj
        have hq : min len (16 * q) = 16 * q := by
          unfold lineLen at hj'
          omega
        rw [Function.comp_apply, hq]
  rw [hgen, show min len (16 * ((len + 15) / 16)) = len by omega]

end

/-- **The hex dump is faithful and aligned.** The body of the dump of a
frame of at least one byte consists of a line for every 16 bytes; line `k`
has the offset `16 * k`, the bytes of that line in hexadecimal and as
characters, and its bar in column 60; and what is read from the
hexadecimal columns of all lines is what `CompleteFrame` was given. -/
theorem dump_faithful (packet : Nat → UInt8) (len : BitVec 32) (ascii : Nat → Char)
    (hlen : 1 ≤ len.toInt) :
    ∃ lines : List (List Char),
      dumpBody packet len ascii = lines.flatMap (· ++ ['\n']) ∧
      lines.length = (len.toInt.toNat + 15) / 16 ∧
      (∀ k l, lines[k]? = some l →
        DumpLine k ((((completeFrame len).eval packet).drop (16 * k)).take 16) l) ∧
      lines.flatMap (fun l => readHex (hexField l)) = (completeFrame len).eval packet := by
  have hbound : len.toInt.toNat < 2 ^ 31 := by
    have := BitVec.toInt_lt (x := len)
    omega
  have hpos : 0 < len.toInt.toNat := by omega
  have hbytes : (completeFrame len).eval packet = (List.range len.toInt.toNat).map packet := by
    rw [completeFrame, if_neg (by omega), eval_bytes, List.range_eq_range']
  unfold dumpBody
  generalize len.toInt.toNat = n at *
  have hline : ∀ k < (n + 15) / 16, DumpLine k
      ((List.range (lineLen n k)).map fun j => packet (16 * k + j))
      (lineText packet (16 * k) (lineLen n k)) :=
    fun k hk => dumpLine_lineText (by omega) (lineLen_le n k)
  refine ⟨_, dumpBytes_out hpos, by rw [List.length_map, List.length_range], fun k l hl => ?_, ?_⟩
  · rw [hbytes, drop_take_bytes]
    rw [List.getElem?_map, Option.map_eq_some_iff] at hl
    obtain ⟨k', hk', rfl⟩ := hl
    obtain ⟨hlt, rfl⟩ := List.getElem?_eq_some_iff.mp hk'
    rw [List.length_range] at hlt
    rw [List.getElem_range]
    exact hline k hlt
  · rw [List.flatMap_map, hbytes, ← flatMap_lines n]
    exact List.flatMap_congr fun k hk => (hline k (List.mem_range.mp hk)).hex

/-- A frame of 17 bytes: two lines, the second one of a single byte. -/
theorem dump_faithful_seventeen : ∃ lines : List (List Char),
    dumpBody (fun i => UInt8.ofNat i) 17 (fun _ => 'x') = lines.flatMap (· ++ ['\n']) ∧
    lines.length = 2 := by
  obtain ⟨lines, hbody, hlines, -⟩ :=
    dump_faithful (fun i => UInt8.ofNat i) 17 (fun _ => 'x') (by decide)
  exact ⟨lines, hbody, hlines⟩

end OsSuite.Sniffer
