import TradeX.EndOfDay
import TradeX.SymbolLoader
import Mathlib.Data.List.TakeWhile

/-!
# The symbol file

`saveEndOfDayCSV` on the bytes of the symbols, with the integers of the source, and what
`loadSymbolCSV` makes of the text. A number is written in digits and read back (`stoull_decimal`),
a field ends at its comma (`getField_append`) and a line at its newline (`linesOf_flatMap`), so the
file of one day is read back whole on the next (`load_save`), each symbol with its closing price
and the band around it (`SymbolRecord.nextDay`).

The text is that of `TradeX.saveEndOfDayCSV`, which writes it as a string
(`saveEndOfDayCSV_toRecord`).
-/

namespace TradeX

namespace SymbolLoader

/-- `ltp * 90 / 100`. -/
def calculateLower (ltp : UInt64) : UInt64 :=
  ltp * 90 / 100

/-- `ltp * 110 / 100`. -/
def calculateUpper (ltp : UInt64) : UInt64 :=
  ltp * 110 / 100

/-- The digits that `<<` writes. -/
def decimal (n : ℕ) : List UInt8 :=
  (Nat.toDigits 10 n).map fun c => c.toNat.toUInt8

/-- The bytes of a text. -/
def utf8 (text : String) : List UInt8 :=
  text.toByteArray.data.toList

end SymbolLoader

namespace SymbolRecord

open SymbolLoader

/-- The line for a symbol whose latest price is `latestLtp`. -/
def endOfDayLine (s : SymbolRecord) (latestLtp : UInt64) : List UInt8 :=
  s.symbol ++ [44] ++ decimal s.symbolId.toNat ++ [44] ++ decimal latestLtp.toNat ++ [44] ++
    decimal (SymbolLoader.calculateLower latestLtp).toNat ++ [44] ++
    decimal (SymbolLoader.calculateUpper latestLtp).toNat ++ [10]

/-- `last_price[symbol_id]`, or the price the symbol had if that is zero. -/
def closing (lastPrice : ℕ → UInt64) (s : SymbolRecord) : UInt64 :=
  if lastPrice s.symbolId.toNat = 0 then s.ltp else lastPrice s.symbolId.toNat

/-- A pass of the loop over the symbols. -/
def save (lastPrice : ℕ → UInt64) (s : SymbolRecord) : Except Fault (List UInt8) :=
  if s.symbolId.toNat < maxSymbols then .ok (s.endOfDayLine (s.closing lastPrice))
  else .error .badAccess

/-- What the symbol should be on the next day. -/
def nextDay (lastPrice : ℕ → UInt64) (s : SymbolRecord) : SymbolRecord where
  symbol := s.symbol
  symbolId := s.symbolId
  ltp := s.closing lastPrice
  lowerLimit := s.closing lastPrice * 90 / 100
  upperLimit := s.closing lastPrice * 110 / 100

end SymbolRecord

namespace SymbolLoader

/-- The bytes `saveEndOfDayCSV` writes. -/
def saveEndOfDayCSV (lastPrice : ℕ → UInt64) (symbols : List SymbolRecord) :
    Except Fault (List UInt8) := do
  let lines ← symbols.mapM (SymbolRecord.save lastPrice)
  .ok (utf8 csvHeader ++ lines.flatten)

/-! ## Numbers -/

/-- The byte of a digit of `Nat.toDigits`. -/
theorem toNat_digit {n : ℕ} {d : Char} (h : d ∈ Nat.toDigits 10 n) :
    48 ≤ d.toNat ∧ d.toNat ≤ 57 ∧ d.toNat.toUInt8.toNat = d.toNat := by
  have hdigit := Nat.isDigit_of_mem_toDigits (by decide) (by decide) h
  simp only [Char.isDigit, Bool.and_eq_true, decide_eq_true_eq] at hdigit
  have h1 : 48 ≤ d.toNat := hdigit.1
  have h2 : d.toNat ≤ 57 := hdigit.2
  refine ⟨h1, h2, ?_⟩
  simp only [Nat.toUInt8, UInt8.toNat_ofNat']
  omega

theorem isDigit_iff {c : UInt8} : isDigit c = true ↔ 48 ≤ c.toNat ∧ c.toNat ≤ 57 := by
  simp only [isDigit, decide_eq_true_eq, UInt8.le_iff_toNat_le]
  rfl

theorem isDigit_of_mem_decimal {n : ℕ} {c : UInt8} (h : c ∈ decimal n) : isDigit c = true := by
  obtain ⟨d, hd, rfl⟩ := List.mem_map.1 h
  obtain ⟨h1, h2, heq⟩ := toNat_digit hd
  rw [isDigit_iff, heq]
  exact ⟨h1, h2⟩

theorem decimal_ne_nil (n : ℕ) : decimal n ≠ [] := by
  rw [decimal, ne_eq, List.map_eq_nil_iff]
  exact Nat.toDigits_ne_nil

theorem digitsValue_decimal (n : ℕ) : digitsValue (decimal n) = n := by
  have hfold : digitsValue (decimal n) = Nat.ofDigitChars 10 (Nat.toDigits 10 n) 0 := by
    rw [digitsValue, decimal, List.foldl_map, Nat.ofDigitChars_eq_foldl]
    refine List.foldl_ext _ _ _ fun value d hd => ?_
    rw [(toNat_digit hd).2.2]
    rfl
  rw [hfold, Nat.ofDigitChars_ten_toDigits]

/-- A digit is neither white space nor a sign. -/
theorem isSpace_of_isDigit {c : UInt8} (h : isDigit c = true) :
    isSpace c = false ∧ c ≠ 43 ∧ c ≠ 45 := by
  rw [isDigit_iff] at h
  refine ⟨?_, ?_, ?_⟩
  · rw [isSpace, decide_eq_false_iff_not]
    rintro (rfl | ⟨-, hle⟩)
    · exact absurd h (by decide)
    · have hle' : c.toNat ≤ 13 := UInt8.le_iff_toNat_le.1 hle
      omega
  · rintro rfl
    exact absurd h (by decide)
  · rintro rfl
    exact absurd h (by decide)

theorem sign_of_isDigit {c : UInt8} {rest : List UInt8} (h : isDigit c = true) :
    sign (c :: rest) = (false, c :: rest) := by
  obtain ⟨-, h43, h45⟩ := isSpace_of_isDigit h
  unfold sign
  split
  · exact absurd (List.cons.inj ‹_›).1 h43
  · exact absurd (List.cons.inj ‹_›).1 h45
  · rfl

/-- A number that has been written is read back. -/
theorem stoull_decimal {n : ℕ} (h : n < 2 ^ 64) : stoull (decimal n) = .ok n := by
  obtain ⟨c, rest, hcons⟩ := List.exists_cons_of_ne_nil (decimal_ne_nil n)
  have hdigit : ∀ d ∈ decimal n, isDigit d = true := fun d hd => isDigit_of_mem_decimal hd
  have hc : isDigit c = true := hdigit c (hcons ▸ List.mem_cons_self)
  have hspace : (decimal n).dropWhile isSpace = decimal n := by
    rw [hcons, List.dropWhile_cons_of_neg (by rw [(isSpace_of_isDigit hc).1]; decide)]
  have hsign : sign (decimal n) = (false, decimal n) := by
    rw [hcons, sign_of_isDigit hc]
  have htake : (decimal n).takeWhile isDigit = decimal n := List.takeWhile_eq_self_iff.2 hdigit
  rw [stoull, hspace, hsign]
  simp only [htake, if_neg (decimal_ne_nil n), digitsValue_decimal, if_neg (Nat.not_le.2 h)]
  rfl

/-! ## Fields and lines -/

/-- A field that is followed by another. -/
theorem getField_append {field : List UInt8} (h : 44 ∉ field) (rest token : List UInt8) :
    getField (some (field ++ 44 :: rest)) token = (field, some rest) := by
  have hfield : ∀ c ∈ field, decide (c ≠ 44) = true := fun c hc =>
    decide_eq_true fun heq => h (heq ▸ hc)
  have hdrop : (field ++ 44 :: rest).dropWhile (· ≠ 44) = 44 :: rest := by
    rw [List.dropWhile_append_of_pos hfield, List.dropWhile_cons_of_neg (by decide)]
  have htake : (field ++ 44 :: rest).takeWhile (· ≠ 44) = field := by
    rw [List.takeWhile_append_of_pos hfield, List.takeWhile_cons_of_neg (by decide),
      List.append_nil]
  simp only [getField, hdrop, htake]

/-- The last field of a line. -/
theorem getField_last {field : List UInt8} (h : 44 ∉ field) (token : List UInt8) :
    getField (some field) token = (field, none) := by
  have hdrop : field.dropWhile (· ≠ 44) = [] :=
    List.dropWhile_eq_nil_iff.2 fun c hc => decide_eq_true fun heq => h (heq ▸ hc)
  simp only [getField, hdrop]

/-- Neither a comma nor a newline is a digit. -/
theorem not_mem_decimal (n : ℕ) : 44 ∉ decimal n ∧ 10 ∉ decimal n :=
  ⟨fun h => absurd (isDigit_of_mem_decimal h) (by decide),
    fun h => absurd (isDigit_of_mem_decimal h) (by decide)⟩

/-- A field has no comma, and nothing that the line has not. -/
theorem getField_some (line token : List UInt8) :
    44 ∉ (getField (some line) token).1 ∧ (getField (some line) token).1 ⊆ line := by
  cases hdrop : line.dropWhile (· ≠ 44) with
  | nil =>
    simp only [getField, hdrop]
    exact ⟨fun h => by simpa using List.dropWhile_eq_nil_iff.1 hdrop 44 h, List.Subset.refl _⟩
  | cons c after =>
    simp only [getField, hdrop]
    refine ⟨fun h => by simpa using List.mem_takeWhile_imp h, ?_⟩
    exact (List.takeWhile_prefix _).subset

theorem symbol_of_parseLine {line : List UInt8} {s : SymbolRecord} (h : parseLine line = .ok s) :
    s.symbol = (getField (some line) []).1 := by
  simp only [parseLine, bind, Except.bind] at h
  split at h
  · cases h
  split at h
  · cases h
  split at h
  · cases h
  split at h
  · cases h
  cases h
  rfl

/-- No piece between newlines has one. -/
theorem not_mem_of_mem_splitOn : ∀ {file line : List UInt8}, line ∈ file.splitOn 10 →
    10 ∉ line
  | [], line, h => by
    obtain rfl : line = [] := by simpa using h
    exact List.not_mem_nil
  | c :: file, line, h => by
    have ih : ∀ line ∈ file.splitOn 10, 10 ∉ line := fun line => not_mem_of_mem_splitOn
    rw [List.splitOn_cons_eq_if_modifyHead] at h
    split_ifs at h with hc
    · rcases List.mem_cons.1 h with rfl | h
      · exact List.not_mem_nil
      · exact ih line h
    · obtain ⟨first, rest, hsplit⟩ := List.exists_cons_of_ne_nil (List.splitOn_ne_nil 10 file)
      rw [hsplit] at h ih
      rcases List.mem_cons.1 h with rfl | h
      · have hne : c ≠ 10 := by simpa using hc
        rw [List.mem_cons, not_or]
        exact ⟨hne.symm, ih first List.mem_cons_self⟩
      · exact ih line (List.mem_cons_of_mem _ h)

theorem not_mem_of_mem_linesOf {file line : List UInt8} (h : line ∈ linesOf file) :
    10 ∉ line := by
  simp only [linesOf] at h
  split_ifs at h
  · exact not_mem_of_mem_splitOn ((List.dropLast_sublist _).mem h)
  · exact not_mem_of_mem_splitOn h

/-- The symbols that are loaded have no comma and no newline. -/
theorem symbol_of_load {file : List UInt8} {symbols : List SymbolRecord}
    (h : loadSymbolCSV file = .ok symbols) : ∀ s ∈ symbols, 44 ∉ s.symbol ∧
    10 ∉ s.symbol := by
  intro s hs
  obtain ⟨line, hline, hparse⟩ := Runs.exists_of_mem_mapM h hs
  obtain ⟨hcomma, hsub⟩ := getField_some line []
  rw [symbol_of_parseLine hparse]
  exact ⟨hcomma, fun hmem => not_mem_of_mem_linesOf (List.mem_of_mem_tail hline) (hsub hmem)⟩

/-- The lines of a text whose lines are all ended. -/
theorem linesOf_flatMap {lines : List (List UInt8)} (h : ∀ line ∈ lines, 10 ∉ line) :
    linesOf (lines.flatMap fun line => line ++ [10]) = lines := by
  have hsplit : (lines.flatMap fun line => line ++ [10]).splitOn 10 = lines ++ [[]] := by
    induction lines with
    | nil => rfl
    | cons line lines ih =>
      rw [List.forall_mem_cons] at h
      rw [List.flatMap_cons, List.append_assoc, List.singleton_append,
        List.splitOn_append_cons_self_of_not_mem h.1, ih h.2, List.cons_append]
  rw [linesOf, hsplit]
  simp only [List.getLast?_concat, if_true, List.dropLast_concat]

end SymbolLoader

/-! ## Rows -/

namespace SymbolRecord

open SymbolLoader

/-- The line without its newline. -/
def row (s : SymbolRecord) (latestLtp : UInt64) : List UInt8 :=
  s.symbol ++ 44 :: (decimal s.symbolId.toNat ++ 44 :: (decimal latestLtp.toNat ++ 44 ::
    (decimal (SymbolLoader.calculateLower latestLtp).toNat ++ 44 ::
      decimal (SymbolLoader.calculateUpper latestLtp).toNat)))

theorem endOfDayLine_eq (s : SymbolRecord) (latestLtp : UInt64) :
    s.endOfDayLine latestLtp = s.row latestLtp ++ [10] := by
  simp [endOfDayLine, row]

theorem not_mem_row {s : SymbolRecord} (h : 10 ∉ s.symbol) (latestLtp : UInt64) :
    10 ∉ s.row latestLtp := by
  simp [row, h, not_mem_decimal]

/-- A row is read back with its price and the band around it. -/
theorem parseLine_row {s : SymbolRecord} (h : 44 ∉ s.symbol) (lastPrice : ℕ → UInt64) :
    parseLine (s.row (s.closing lastPrice)) = .ok (s.nextDay lastPrice) := by
  have hid : s.symbolId.toNat < 2 ^ 64 := s.symbolId.toNat_lt.trans (by decide)
  simp only [parseLine, row, getField_append h, getField_append (not_mem_decimal _).1,
    getField_last (not_mem_decimal _).1, stoull_decimal hid, stoull_decimal (UInt64.toNat_lt _),
    bind, Except.bind, UInt32.ofNat_toNat, UInt64.ofNat_toNat]
  rfl

end SymbolRecord

namespace SymbolLoader

theorem save_eq_ok {lastPrice : ℕ → UInt64} {s : SymbolRecord} {line : List UInt8} :
    s.save lastPrice = .ok line ↔
      s.symbolId.toNat < maxSymbols ∧ line = s.row (s.closing lastPrice) ++ [10] := by
  rw [SymbolRecord.save, SymbolRecord.endOfDayLine_eq]
  split_ifs with hid
  · simp only [hid, true_and, Except.ok.injEq, eq_comm]
  · simp only [hid, false_and]

/-- The symbols are saved one after the other, and a fault at one of them ends the loop. -/
theorem mapM_save_eq_ok {lastPrice : ℕ → UInt64} {symbols : List SymbolRecord}
    {lines : List (List UInt8)} : symbols.mapM (SymbolRecord.save lastPrice) = .ok lines ↔
      (∀ s ∈ symbols, s.symbolId.toNat < maxSymbols) ∧
        lines = symbols.map fun s => s.row (s.closing lastPrice) ++ [10] :=
  Runs.mapM_eq_ok_iff fun _ _ => save_eq_ok

/-- The header without its newline. -/
def headerRow : List UInt8 :=
  utf8 "symbol,symbol_id,ltp,lower_limit,upper_limit"

theorem utf8_csvHeader : utf8 csvHeader = headerRow ++ [10] := by
  decide

/-- The file of a header and a row for each symbol. -/
def fileOf (lastPrice : ℕ → UInt64) (symbols : List SymbolRecord) : List UInt8 :=
  (headerRow :: symbols.map fun s => s.row (s.closing lastPrice)).flatMap fun line => line ++ [10]

/-- The file is written if every id is inside `last_price`. -/
theorem saveEndOfDayCSV_eq_ok {lastPrice : ℕ → UInt64} {symbols : List SymbolRecord}
    {file : List UInt8} : saveEndOfDayCSV lastPrice symbols = .ok file ↔
      (∀ s ∈ symbols, s.symbolId.toNat < maxSymbols) ∧ file = fileOf lastPrice symbols := by
  have hfile : utf8 csvHeader ++ (symbols.map fun s => s.row (s.closing lastPrice) ++
      [10]).flatten = fileOf lastPrice symbols := by
    rw [fileOf, List.flatMap_cons, utf8_csvHeader, List.flatMap_map, List.flatMap_def]
  rw [saveEndOfDayCSV, bind_eq_ok]
  constructor
  · rintro ⟨lines, hlines, hok⟩
    obtain ⟨hid, rfl⟩ := mapM_save_eq_ok.1 hlines
    exact ⟨hid, (Except.ok.inj hok).symm.trans hfile⟩
  · rintro ⟨hid, rfl⟩
    exact ⟨_, mapM_save_eq_ok.2 ⟨hid, rfl⟩, congrArg Except.ok hfile⟩

theorem mapM_parseLine_row {lastPrice : ℕ → UInt64} : ∀ {symbols : List SymbolRecord},
    (∀ s ∈ symbols, 44 ∉ s.symbol) →
      (symbols.map fun s => s.row (s.closing lastPrice)).mapM parseLine =
        .ok (symbols.map (SymbolRecord.nextDay lastPrice))
  | [], _ => rfl
  | s :: symbols, h => by
    rw [List.forall_mem_cons] at h
    rw [List.map_cons, List.mapM_cons, SymbolRecord.parseLine_row h.1, mapM_parseLine_row h.2]
    rfl

theorem loadSymbolCSV_fileOf (lastPrice : ℕ → UInt64) {symbols : List SymbolRecord}
    (hsymbol : ∀ s ∈ symbols, 44 ∉ s.symbol ∧ 10 ∉ s.symbol) :
    loadSymbolCSV (fileOf lastPrice symbols) =
      .ok (symbols.map (SymbolRecord.nextDay lastPrice)) := by
  have hlines : ∀ line ∈ headerRow :: symbols.map fun s => s.row (s.closing lastPrice),
      10 ∉ line := by
    intro line hline
    rcases List.mem_cons.1 hline with rfl | hline
    · decide
    · obtain ⟨s, hs, rfl⟩ := List.mem_map.1 hline
      exact SymbolRecord.not_mem_row (hsymbol s hs).2 _
  rw [loadSymbolCSV, fileOf, linesOf_flatMap hlines, List.tail_cons]
  exact mapM_parseLine_row fun s hs => (hsymbol s hs).1

/-- The file that is saved at the end of a day is loaded on the next, every symbol with its closing
price and the band around it. -/
theorem load_save (lastPrice : ℕ → UInt64) (symbols : List SymbolRecord)
    (hsymbol : ∀ s ∈ symbols, 44 ∉ s.symbol ∧ 10 ∉ s.symbol)
    (hid : ∀ s ∈ symbols, s.symbolId.toNat < maxSymbols) :
    ∃ file, saveEndOfDayCSV lastPrice symbols = .ok file ∧
      loadSymbolCSV file = .ok (symbols.map (SymbolRecord.nextDay lastPrice)) := by
  refine ⟨fileOf lastPrice symbols, saveEndOfDayCSV_eq_ok.2 ⟨hid, rfl⟩, ?_⟩
  exact loadSymbolCSV_fileOf lastPrice hsymbol

/-- A symbol with no letter, one with a price of twenty digits, and one that has not been traded. -/
def threeSymbols : List SymbolRecord :=
  [⟨[], 0, 100, 90, 110⟩, ⟨[65, 66], 7, 5, 4, 5⟩,
    ⟨[34, 0, 255], 1023, 26243, 23618, 28867⟩]

theorem load_save_threeSymbols :
    ∃ file, saveEndOfDayCSV (fun i => if i = 7 then 18446744073709551615 else 0) threeSymbols =
        .ok file ∧
      loadSymbolCSV file = .ok [⟨[], 0, 100, 90, 110⟩,
        ⟨[65, 66], 7, 18446744073709551615, 184467440737095515, 184467440737095515⟩,
        ⟨[34, 0, 255], 1023, 26243, 23618, 28867⟩] := by
  have hnext : threeSymbols.map
      (SymbolRecord.nextDay fun i => if i = 7 then 18446744073709551615 else 0) =
        [⟨[], 0, 100, 90, 110⟩,
          ⟨[65, 66], 7, 18446744073709551615, 184467440737095515, 184467440737095515⟩,
          ⟨[34, 0, 255], 1023, 26243, 23618, 28867⟩] := by decide
  rw [← hnext]
  exact load_save _ threeSymbols (by decide) (by decide)

/-! ## The text -/

theorem utf8_append (text text' : String) : utf8 (text ++ text') = utf8 text ++ utf8 text' := by
  simp [utf8]

theorem utf8_ofList : ∀ {l : List Char}, (∀ c ∈ l, c.toNat ≤ 127) →
    utf8 (String.ofList l) = l.map fun c => c.toNat.toUInt8
  | [], _ => by simp [utf8]
  | c :: l, h => by
    rw [List.forall_mem_cons] at h
    have ih := utf8_ofList h.2
    have hsize : c.utf8Size = 1 := by
      rw [Char.utf8Size, if_pos]
      exact UInt32.le_iff_toNat_le.2 h.1
    have hbyte : c.toUInt8 = UInt8.ofNat c.toNat := rfl
    simp only [utf8, String.toByteArray_ofList] at ih ⊢
    rw [List.utf8Encode_cons, List.utf8Encode_singleton, String.utf8EncodeChar_eq_singleton hsize]
    simp [ih, hbyte]

theorem utf8_toString (n : ℕ) : utf8 (toString n) = decimal n := by
  rw [Nat.toString_eq_ofList_toDigits, utf8_ofList, decimal]
  intro c hc
  have := toNat_digit hc
  omega

theorem toNat_calculateLower (ltp : UInt64) :
    (calculateLower ltp).toNat = TradeX.calculateLower ltp.toNat := by
  simp [calculateLower, TradeX.calculateLower]

theorem toNat_calculateUpper (ltp : UInt64) :
    (calculateUpper ltp).toNat = TradeX.calculateUpper ltp.toNat := by
  simp [calculateUpper, TradeX.calculateUpper]

end SymbolLoader

/-! ## The text as a string -/

namespace SymbolInfo

open SymbolLoader

/-- The record of a symbol whose name is a text. -/
def toRecord (s : SymbolInfo) : SymbolRecord :=
  ⟨utf8 s.symbol, .ofNat s.symbolId, .ofNat s.ltp, .ofNat s.lowerLimit, .ofNat s.upperLimit⟩

/-- The integers fit their types. -/
structure InRange (s : SymbolInfo) : Prop where
  symbolId : s.symbolId < 2 ^ 32
  ltp : s.ltp < 2 ^ 64

variable {s : SymbolInfo} {lastPrice : ℕ → ℕ}

theorem utf8_endOfDayLine (h : s.InRange) {latestLtp : ℕ} (hltp : latestLtp < 2 ^ 64) :
    utf8 (s.endOfDayLine latestLtp) = s.toRecord.endOfDayLine (.ofNat latestLtp) := by
  have hid : (UInt32.ofNat s.symbolId).toNat = s.symbolId := UInt32.toNat_ofNat_of_lt' h.symbolId
  have hprice : (UInt64.ofNat latestLtp).toNat = latestLtp := UInt64.toNat_ofNat_of_lt' hltp
  have hcomma : utf8 "," = [44] := by decide
  have hnewline : utf8 "\n" = [10] := by decide
  simp only [SymbolInfo.endOfDayLine, SymbolRecord.endOfDayLine, toRecord, utf8_append,
    utf8_toString, toNat_calculateLower, toNat_calculateUpper, hid, hprice, hcomma, hnewline]

theorem toRecord_closing (h : s.InRange) (hprice : ∀ i, lastPrice i < 2 ^ 64) :
    s.toRecord.closing (fun i => .ofNat (lastPrice i)) = .ofNat (s.savedPrice lastPrice) := by
  have hid : (UInt32.ofNat s.symbolId).toNat = s.symbolId := UInt32.toNat_ofNat_of_lt' h.symbolId
  have hzero : UInt64.ofNat (lastPrice s.symbolId) = 0 ↔ lastPrice s.symbolId = 0 := by
    rw [← UInt64.toNat_inj, UInt64.toNat_ofNat_of_lt' (hprice _)]
    rfl
  simp only [SymbolRecord.closing, toRecord, hid, hzero, savedPrice]
  split_ifs <;> rfl

theorem savedPrice_lt (h : s.InRange) (hprice : ∀ i, lastPrice i < 2 ^ 64) :
    s.savedPrice lastPrice < 2 ^ 64 := by
  rw [savedPrice]
  split_ifs
  · exact h.ltp
  · exact hprice _

/-- The record of a text is saved as the bytes of its line. -/
theorem save_toRecord (h : s.InRange) (hprice : ∀ i, lastPrice i < 2 ^ 64) :
    s.toRecord.save (fun i => .ofNat (lastPrice i)) = (s.save lastPrice).map utf8 := by
  have hid : s.toRecord.symbolId.toNat = s.symbolId := UInt32.toNat_ofNat_of_lt' h.symbolId
  rw [SymbolRecord.save, hid, toRecord_closing h hprice,
    ← utf8_endOfDayLine h (savedPrice_lt h hprice)]
  split_ifs with hlt
  · rw [TradeX.save_eq_ok.2 ⟨hlt, rfl⟩]
    rfl
  · rw [SymbolInfo.save, latestPrice, if_neg hlt]
    rfl

theorem mapM_save_toRecord (hprice : ∀ i, lastPrice i < 2 ^ 64) : ∀ {symbols : List SymbolInfo},
    (∀ s ∈ symbols, s.InRange) →
      (symbols.map toRecord).mapM (SymbolRecord.save fun i => .ofNat (lastPrice i)) =
        (symbols.mapM (SymbolInfo.save lastPrice)).map (List.map utf8)
  | [], _ => rfl
  | s :: symbols, h => by
    rw [List.forall_mem_cons] at h
    rw [List.map_cons, List.mapM_cons, List.mapM_cons, save_toRecord h.1 hprice,
      mapM_save_toRecord hprice h.2]
    cases s.save lastPrice with
    | error e => rfl
    | ok line => cases symbols.mapM (SymbolInfo.save lastPrice) <;> rfl

end SymbolInfo

theorem SymbolLoader.utf8_join : ∀ (lines : List String),
    utf8 (String.join lines) = (lines.map utf8).flatten
  | [] => rfl
  | line :: lines => by
    rw [String.join_cons, utf8_append, utf8_join lines]
    rfl

/-- The bytes are those of the string. -/
theorem saveEndOfDayCSV_toRecord {lastPrice : ℕ → ℕ} (hprice : ∀ i, lastPrice i < 2 ^ 64)
    {symbols : List SymbolInfo} (h : ∀ s ∈ symbols, s.InRange) :
    SymbolLoader.saveEndOfDayCSV (fun i => .ofNat (lastPrice i)) (symbols.map SymbolInfo.toRecord) =
      (saveEndOfDayCSV lastPrice symbols).map SymbolLoader.utf8 := by
  rw [SymbolLoader.saveEndOfDayCSV, SymbolInfo.mapM_save_toRecord hprice h, saveEndOfDayCSV]
  cases symbols.mapM (SymbolInfo.save lastPrice) with
  | error e => rfl
  | ok lines =>
    change Except.ok _ = Except.ok _
    rw [SymbolLoader.utf8_append, SymbolLoader.utf8_join]

end TradeX
