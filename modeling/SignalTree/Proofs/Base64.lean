import Mathlib
import SignalTree.Base64
import SignalTree.Proofs.Text.Trim

/-!
# Base64 — binary data is read back

The text of some bytes consists of the symbols of their six-bit numbers and of at most two padding
characters that fill up the last group of four.  Every such text is accepted, and its numbers make
up the bytes again.

* `Base64.symbolsOf`: the six-bit numbers of some bytes, and `bytesOf_symbolsOf`, the way back;
* `Base64.decodeCodes_of_symbols`: what the reader makes of symbols and their padding;
* `Base64.decode_encode`: reading undoes writing.
-/

namespace SignalTree
namespace Base64

/-! ## Six-bit numbers -/

/-- The six-bit numbers of some bytes. -/
def symbolsOf : List UInt8 → List Nat
  | [] => []
  | [a] =>
    let n := a.toNat * 16
    [n / 64, n % 64]
  | [a, b] =>
    let n := (a.toNat * 256 + b.toNat) * 4
    [n / 4096, n / 64 % 64, n % 64]
  | a :: b :: c :: rest =>
    let n := (a.toNat * 256 + b.toNat) * 256 + c.toNat
    n / 262144 :: n / 4096 % 64 :: n / 64 % 64 :: n % 64 :: symbolsOf rest

/-- The number of padding characters after the symbols of some bytes. -/
def padding (bytes : List UInt8) : Nat := (3 - bytes.length % 3) % 3

theorem padding_le (bytes : List UInt8) : padding bytes ≤ 2 := by
  simp only [padding]
  omega

theorem padding_cons_cons_cons (a b c : UInt8) (rest : List UInt8) :
    padding (a :: b :: c :: rest) = padding rest := by
  simp only [padding, List.length_cons]
  omega

theorem symbolsOf_lt (bytes : List UInt8) : ∀ n ∈ symbolsOf bytes, n < 64 := by
  fun_induction symbolsOf bytes with
  | case1 => simp
  | case2 a n =>
    have ha := a.toNat_lt
    simp only [List.mem_cons, List.not_mem_nil, or_false]
    rintro m (rfl | rfl) <;> omega
  | case3 a b n =>
    have ha := a.toNat_lt
    have hb := b.toNat_lt
    simp only [List.mem_cons, List.not_mem_nil, or_false]
    rintro m (rfl | rfl | rfl) <;> omega
  | case4 a b c rest n ih =>
    have ha := a.toNat_lt
    have hb := b.toNat_lt
    have hc := c.toNat_lt
    simp only [List.mem_cons]
    rintro m (rfl | rfl | rfl | rfl | hm)
    · omega
    · omega
    · omega
    · omega
    · exact ih m hm

/-- Symbols and padding fill whole groups of four. -/
theorem length_symbolsOf (bytes : List UInt8) :
    ((symbolsOf bytes).length + padding bytes) % 4 = 0 := by
  fun_induction symbolsOf bytes with
  | case1 => rfl
  | case2 => simp [padding]
  | case3 => simp [padding]
  | case4 a b c rest n ih =>
    rw [padding_cons_cons_cons]
    simp only [List.length_cons]
    omega

/-- The six-bit numbers of some bytes make up the bytes again. -/
theorem bytesOf_symbolsOf (bytes : List UInt8) : bytesOf (symbolsOf bytes) = bytes := by
  fun_induction symbolsOf bytes with
  | case1 => rfl
  | case2 a n =>
    have ha := a.toNat_lt
    simp only [bytesOf, List.cons.injEq, and_true, ← UInt8.toNat_inj, UInt8.toNat_ofNat']
    omega
  | case3 a b n =>
    have ha := a.toNat_lt
    have hb := b.toNat_lt
    simp only [bytesOf, List.cons.injEq, and_true, ← UInt8.toNat_inj, UInt8.toNat_ofNat']
    omega
  | case4 a b c rest n ih =>
    have ha := a.toNat_lt
    have hb := b.toNat_lt
    have hc := c.toNat_lt
    simp only [bytesOf, ih, List.cons.injEq, and_true, ← UInt8.toNat_inj, UInt8.toNat_ofNat']
    omega

/-- The text of some bytes: their symbols, and padding. -/
theorem encodeCodes_eq (bytes : List UInt8) :
    encodeCodes bytes = (symbolsOf bytes).map symbol ++ List.replicate (padding bytes) pad := by
  fun_induction symbolsOf bytes with
  | case1 => rfl
  | case2 => rfl
  | case3 => rfl
  | case4 a b c rest n ih =>
    rw [encodeCodes, ih, padding_cons_cons_cons]
    rfl

/-! ## Symbols -/

theorem bits?_symbol : ∀ n < 64, bits? (symbol n) = some n := by decide

theorem symbol_ne_pad : ∀ n < 64, symbol n ≠ pad := by decide

theorem symbol_graphic : ∀ n < 64, 0x20 < (symbol n).toNat ∧ (symbol n).toNat < 0x7F := by decide

theorem graphic_of_mem_encodeCodes {bytes : List UInt8} {b : UInt8} (hb : b ∈ encodeCodes bytes) :
    0x20 < b.toNat ∧ b.toNat < 0x7F := by
  rw [encodeCodes_eq, List.mem_append, List.mem_map] at hb
  rcases hb with ⟨n, hn, rfl⟩ | hb
  · exact symbol_graphic n (symbolsOf_lt bytes n hn)
  · rw [List.eq_of_mem_replicate hb]
    decide

/-! ## Reading blocks -/

theorem readSymbols_map_symbol {ns : List Nat} (h : ∀ n ∈ ns, n < 64) (offset : Nat) :
    readSymbols offset (ns.map symbol) = .ok ns := by
  induction ns generalizing offset with
  | nil => rfl
  | cons n rest ih =>
    have hrest := ih (fun m hm => h m (List.mem_cons_of_mem _ hm)) (offset + 1)
    simp [readSymbols, bits?_symbol n (h n (List.mem_cons_self ..)), hrest, Except.map]

/-- Padding that ends with a group of four is counted. -/
theorem readLastBlock_pads {p i : Nat} (offset : Nat) (block : LastBlock) (hp : p ≤ 2)
    (hend : (i + p) % 4 = 0) :
    ∃ after, readLastBlock offset i block (List.replicate p pad) = .ok after ∧
      after.symbols = block.symbols ∧ after.pads = block.pads + p := by
  induction p generalizing i block with
  | zero => exact ⟨block, rfl, rfl, rfl⟩
  | succ p ih =>
    have hplace : ¬ i % 4 < 2 := by omega
    rcases ih { block with
        pads := block.pads + 1
        firstPad := if block.pads = 0 then i else block.firstPad } (by omega)
      (show (i + 1 + p) % 4 = 0 by omega) with ⟨after, hread, hsymbols, hpads⟩
    refine ⟨after, ?_, hsymbols, ?_⟩
    · simpa [List.replicate_succ, readLastBlock, hplace] using hread
    · rw [hpads]
      simp only
      omega

/-- Symbols are collected up to the padding. -/
theorem readLastBlock_symbols {ns : List Nat} {p i : Nat} (offset : Nat) (block : LastBlock)
    (h : ∀ n ∈ ns, n < 64) (hnone : block.pads = 0) (hp : p ≤ 2)
    (hend : (i + ns.length + p) % 4 = 0) :
    ∃ after, readLastBlock offset i block (ns.map symbol ++ List.replicate p pad) = .ok after ∧
      after.symbols = block.symbols ++ ns ∧ after.pads = p := by
  induction ns generalizing i block with
  | nil =>
    rcases readLastBlock_pads offset block hp (by simpa using hend) with
      ⟨after, hread, hsymbols, hpads⟩
    exact ⟨after, by simpa using hread, by simpa using hsymbols, by omega⟩
  | cons n rest ih =>
    have hn := h n (List.mem_cons_self ..)
    simp only [List.length_cons] at hend
    rcases ih (i := i + 1) { block with symbols := block.symbols ++ [n], last := symbol n }
        (fun m hm => h m (List.mem_cons_of_mem _ hm)) hnone (by omega) with
      ⟨after, hread, hsymbols, hpads⟩
    refine ⟨after, ?_, by simpa using hsymbols, hpads⟩
    simpa [readLastBlock, symbol_ne_pad n hn, hnone, bits?_symbol n hn] using hread

/-! ## Loose bits -/

/-- Whole groups in front do not count. -/
theorem hasLooseBits_append {front : List Nat} (last : List Nat) (hfront : front.length % 4 = 0) :
    hasLooseBits (front ++ last) = hasLooseBits last := by
  have hlength : (front ++ last).length % 4 = last.length % 4 := by
    rw [List.length_append]
    omega
  cases last with
  | nil => simp [hasLooseBits, hfront]
  | cons n rest =>
    rw [hasLooseBits, hasLooseBits, hlength, List.getLast?_append_of_ne_nil _ (by simp)]

theorem hasLooseBits_symbolsOf (bytes : List UInt8) : hasLooseBits (symbolsOf bytes) = false := by
  fun_induction symbolsOf bytes with
  | case1 => rfl
  | case2 a n =>
    have hloose : n % 64 % 16 = 0 := by omega
    change (n % 64 % 16 != 0) = false
    rw [hloose]
    rfl
  | case3 a b n =>
    have hloose : n % 64 % 4 = 0 := by omega
    change (n % 64 % 4 != 0) = false
    rw [hloose]
    rfl
  | case4 a b c rest n ih =>
    have hfront : [n / 262144, n / 4096 % 64, n / 64 % 64, n % 64].length % 4 = 0 := by
      simp
    exact (hasLooseBits_append (symbolsOf rest) hfront).trans ih

/-! ## Reading texts -/

/-- Symbols without loose bits are accepted with their padding, and make up the bytes. -/
theorem decodeCodes_of_symbols {ns : List Nat} {p : Nat} (h : ∀ n ∈ ns, n < 64) (hp : p ≤ 2)
    (hend : (ns.length + p) % 4 = 0) (hloose : hasLooseBits ns = false) :
    decodeCodes (ns.map symbol ++ List.replicate p pad) = .ok (bytesOf ns) := by
  have hlength : (ns.map symbol ++ List.replicate p pad).length = ns.length + p := by simp
  -- padding reaches back at most two places, so the last block starts among the symbols
  have hstart : (ns.length + p - 1) / 8 * 8 ≤ ns.length := by omega
  have hfour : (ns.length + p - 1) / 8 * 8 % 4 = 0 := by omega
  generalize hs : (ns.length + p - 1) / 8 * 8 = start at hstart hfour
  have hfront : readSymbols 0 ((ns.map symbol ++ List.replicate p pad).take start)
      = .ok (ns.take start) := by
    rw [List.take_append_of_le_length (by simpa using hstart), ← List.map_take]
    exact readSymbols_map_symbol (fun n hn => h n (List.mem_of_mem_take hn)) 0
  have hback : (ns.map symbol ++ List.replicate p pad).drop start
      = (ns.drop start).map symbol ++ List.replicate p pad := by
    rw [List.drop_append_of_le_length (by simpa using hstart), ← List.map_drop]
  have hlast : ((ns.drop start).length + p) % 4 = 0 := by
    rw [List.length_drop]
    omega
  rcases readLastBlock_symbols (i := 0) start ⟨[], 0, 0, 0⟩
      (fun n hn => h n (List.mem_of_mem_drop hn)) rfl hp (by simpa using hlast) with
    ⟨block, hread, hsymbols, hpads⟩
  rw [List.nil_append] at hsymbols
  have hbits : hasLooseBits (ns.drop start) = false := by
    have htake : (ns.take start).length % 4 = 0 := by
      rw [List.length_take, Nat.min_eq_left hstart]
      exact hfour
    rw [← hloose, ← hasLooseBits_append (ns.drop start) htake, List.take_append_drop]
  have hfull : (p + (ns.drop start).length) % 4 = 0 := by omega
  have hone : (ns.length + p) % 4 ≠ 1 := by omega
  simp only [decodeCodes, hlength, if_neg hone, hs, hfront, hback, hread, hsymbols, hpads, hbits,
    hfull, bind, Except.bind, pure, Except.pure, List.take_append_drop]
  rfl

/-! ## Characters -/

theorem toList_loop_eq_drop (bytes : ByteArray) (i : Nat) (acc : List UInt8) :
    ByteArray.toList.loop bytes i acc = acc.reverse ++ bytes.data.toList.drop i := by
  fun_induction ByteArray.toList.loop bytes i acc with
  | case1 i acc hi ih =>
    have hsize : i < bytes.data.toList.length := by simpa using hi
    have hget : bytes.get! i = bytes.data.toList[i] := by
      simp [ByteArray.get!, getElem!_pos bytes.data i (by simpa using hi)]
    rw [ih, List.drop_eq_getElem_cons hsize, hget]
    simp
  | case2 i acc hi =>
    have hsize : bytes.data.toList.length ≤ i := by simpa using hi
    rw [List.drop_eq_nil_of_le hsize, List.append_nil]

theorem utf8EncodeChar_ofNat {b : UInt8} (hb : b.toNat < 0x7F) :
    String.utf8EncodeChar (Char.ofNat b.toNat) = [b] := by
  have hvalid : b.toNat.isValidChar := Or.inl (by omega)
  have hval : (Char.ofNat b.toNat).val.toNat = b.toNat := by
    rw [Char.toNat_val, Char.toNat_ofNat, if_pos hvalid]
  have hsize : (Char.ofNat b.toNat).utf8Size = 1 := by
    rw [Char.utf8Size_eq_one_iff, UInt32.le_iff_toNat_le, hval]
    exact Nat.le_of_lt hb
  rw [String.utf8EncodeChar_eq_singleton hsize]
  congr 1
  rw [← UInt8.toNat_inj, UInt32.toNat_toUInt8, hval]
  omega

/-- The bytes of a text of visible characters are their codes. -/
theorem toUTF8_ofList_codes {codes : List UInt8} (h : ∀ b ∈ codes, b.toNat < 0x7F) :
    (String.ofList (codes.map fun b => Char.ofNat b.toNat)).toUTF8.toList = codes := by
  have hchars : codes.flatMap (fun b => String.utf8EncodeChar (Char.ofNat b.toNat)) = codes := by
    induction codes with
    | nil => rfl
    | cons b rest ih =>
      rw [List.flatMap_cons, utf8EncodeChar_ofNat (h b (List.mem_cons_self ..)),
        ih fun c hc => h c (List.mem_cons_of_mem _ hc)]
      rfl
  rw [String.toUTF8_eq_toByteArray, String.toByteArray_ofList, List.utf8Encode, List.flatMap_map,
    hchars, ByteArray.toList, toList_loop_eq_drop]
  simp

theorem graphic_of_mem_encode {bytes : List UInt8} {c : Char} (hc : c ∈ encode bytes) :
    Text.IsGraphic c := by
  rcases List.mem_map.1 hc with ⟨b, hb, rfl⟩
  have hgraphic := graphic_of_mem_encodeCodes hb
  have hvalid : b.toNat.isValidChar := Or.inl (by omega)
  have hval : (Char.ofNat b.toNat).toNat = b.toNat := by
    rw [Char.toNat_ofNat, if_pos hvalid]
  rw [Text.IsGraphic, hval]
  exact hgraphic

/-- Reading undoes writing. -/
theorem decode_encode (bytes : List UInt8) :
    decode (String.ofList (encode bytes)) = .ok bytes := by
  rw [decode, encode, toUTF8_ofList_codes fun b hb => (graphic_of_mem_encodeCodes hb).2,
    encodeCodes_eq, decodeCodes_of_symbols (symbolsOf_lt bytes) (padding_le bytes)
      (length_symbolsOf bytes) (hasLooseBits_symbolsOf bytes), bytesOf_symbolsOf]

end Base64
end SignalTree
