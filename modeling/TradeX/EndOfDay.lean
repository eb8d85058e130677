import TradeX.StopLoss
import TradeX.Library.Outcomes
import Mathlib.Data.List.Induction

/-!
# The prices at the end of the day

`saveEndOfDayCSV` of `symbol_loader.cpp` writes for each symbol the last price it finds in
`last_price` and the band of the next day. The groups' threads store the price of a trade at the
slot `symbol_id & SYMBOL_MASK` (`storeTrades`, `System.run_lastPrice`), and `saveEndOfDayCSV` reads
the slot `symbol_id`, with no mask.

`closing_prices_iff` : the file is the right one iff every symbol has an id below `MAX_SYMBOLS`.
-/

namespace TradeX

/-- One line of `symbols.csv`. -/
structure SymbolInfo where
  symbol : String
  symbolId : ℕ
  ltp : ℕ
  lowerLimit : ℕ
  upperLimit : ℕ
  deriving DecidableEq, Repr

/-- `ltp * 90 / 100` in 64 bits. -/
def calculateLower (ltp : ℕ) : ℕ :=
  ltp * 90 % 2 ^ 64 / 100

/-- `ltp * 110 / 100` in 64 bits. -/
def calculateUpper (ltp : ℕ) : ℕ :=
  ltp * 110 % 2 ^ 64 / 100

/-- The first line of the file. -/
def csvHeader : String :=
  "symbol,symbol_id,ltp,lower_limit,upper_limit\n"

namespace SymbolInfo

/-- The line for a symbol whose latest price is `latestLtp`. -/
def endOfDayLine (s : SymbolInfo) (latestLtp : ℕ) : String :=
  s.symbol ++ "," ++ toString s.symbolId ++ "," ++ toString latestLtp ++ "," ++
    toString (calculateLower latestLtp) ++ "," ++ toString (calculateUpper latestLtp) ++ "\n"

/-- `last_price[symbol_id].load()`, a fault outside the array. -/
def latestPrice (lastPrice : ℕ → ℕ) (s : SymbolInfo) : Except Fault ℕ :=
  if s.symbolId < maxSymbols then .ok (lastPrice s.symbolId) else .error .badAccess

/-- A pass of the loop over the symbols. -/
def save (lastPrice : ℕ → ℕ) (s : SymbolInfo) : Except Fault String := do
  let latestLtp ← s.latestPrice lastPrice
  .ok (s.endOfDayLine (if latestLtp = 0 then s.ltp else latestLtp))

/-- The price of the last trade in the symbol itself, or the price it had. -/
def closingPrice (trades : List Trade) (s : SymbolInfo) : ℕ :=
  match (trades.filter fun t => t.symbolId = s.symbolId).getLast? with
  | some t => t.price
  | none => s.ltp

end SymbolInfo

/-- The text `saveEndOfDayCSV` writes. -/
def saveEndOfDayCSV (lastPrice : ℕ → ℕ) (symbols : List SymbolInfo) :
    Except Fault String := do
  let lines ← symbols.mapM (SymbolInfo.save lastPrice)
  .ok (csvHeader ++ String.join lines)

/-- The text with the closing price of every symbol. -/
def closingCSV (trades : List Trade) (symbols : List SymbolInfo) : String :=
  csvHeader ++ String.join (symbols.map fun s => s.endOfDayLine (s.closingPrice trades))

/-! ## What the threads have stored -/

/-- A slot holds the price of the last trade stored there. -/
theorem storeTrades_eq (lastPrice : ℕ → ℕ) (trades : List Trade) (slot : ℕ) :
    storeTrades lastPrice trades slot =
      match (trades.filter fun t => t.symbolId % maxSymbols = slot).getLast? with
      | some t => t.price
      | none => lastPrice slot := by
  induction trades using List.reverseRecOn with
  | nil => rfl
  | append_singleton trades t ih =>
    unfold storeTrades at ih ⊢
    rw [List.foldl_append, List.foldl_cons, List.foldl_nil, List.filter_append]
    rcases eq_or_ne (t.symbolId % maxSymbols) slot with rfl | hne
    · simp
    · rw [Function.update_of_ne hne.symm, ih]
      simp [hne]

theorem storeTrades_append (lastPrice : ℕ → ℕ) (trades trades' : List Trade) :
    storeTrades lastPrice (trades ++ trades') = storeTrades (storeTrades lastPrice trades)
      trades' :=
  List.foldl_append

namespace System

variable {std : StdHeap ClientOrder} {sys sys' : System}

/-- A step stores the price of one trade or none. -/
theorem step_lastPrice {a : Action} (h : sys.step std a = some sys') :
    ∃ trades, sys'.lastPrice = storeTrades sys.lastPrice trades := by
  rcases step_cases h with hi | ⟨i, -, hstore⟩ | homs
  · exact ⟨[], hi.lastPrice⟩
  · simp only [store] at hstore
    split at hstore
    · obtain rfl := Option.some.inj hstore
      exact ⟨[_], rfl⟩
    · cases hstore
  · obtain ⟨oms, pc, rfl, -⟩ := omsStep_cases homs
    exact ⟨[], rfl⟩

/-- Whatever the order of their steps, the threads store the prices of a sequence of trades. -/
theorem run_lastPrice : ∀ {actions : List Action} {sys : System}, sys.run std actions =
    some sys' → ∃ trades, sys'.lastPrice = storeTrades sys.lastPrice trades
  | [], sys, h => by
    obtain rfl := Option.some.inj h
    exact ⟨[], rfl⟩
  | a :: actions, sys, h => by
    obtain ⟨sys₁, hstep, hrun⟩ := Option.bind_eq_some_iff.1 (by simpa [run] using h)
    obtain ⟨trades, htrades⟩ := step_lastPrice hstep
    obtain ⟨trades', htrades'⟩ := run_lastPrice hrun
    exact ⟨trades ++ trades', by rw [htrades', htrades, storeTrades_append]⟩

end System

/-! ## The file -/

section File

variable {symbols : List SymbolInfo} {trades : List Trade} {s : SymbolInfo}

/-- The price a symbol is saved with, once it has been read. -/
def SymbolInfo.savedPrice (lastPrice : ℕ → ℕ) (s : SymbolInfo) : ℕ :=
  if lastPrice s.symbolId = 0 then s.ltp else lastPrice s.symbolId

theorem save_eq_ok {lastPrice : ℕ → ℕ} {line : String} : s.save lastPrice = .ok line ↔
    s.symbolId < maxSymbols ∧ line = s.endOfDayLine (s.savedPrice lastPrice) := by
  unfold SymbolInfo.save SymbolInfo.latestPrice
  by_cases hid : s.symbolId < maxSymbols
  · rw [if_pos hid, ok_bind]
    simp only [hid, true_and, Except.ok.injEq, eq_comm]
    rfl
  · rw [if_neg hid]
    simp only [hid, false_and, iff_false]
    exact fun h => by cases h

/-- The lines are written one after the other, and a fault at one of them ends the loop. -/
theorem mapM_save_eq_ok {lastPrice : ℕ → ℕ} {lines : List String} :
    symbols.mapM (SymbolInfo.save lastPrice) = .ok lines ↔
      (∀ s ∈ symbols, s.symbolId < maxSymbols) ∧
        lines = symbols.map fun s => s.endOfDayLine (s.savedPrice lastPrice) :=
  Runs.mapM_eq_ok_iff fun _ _ => save_eq_ok

/-- With all ids below `MAX_SYMBOLS` no two symbols share a slot. -/
theorem storeTrades_closingPrice (hid : ∀ t ∈ trades, t.symbolId < maxSymbols)
    (hprice : ∀ t ∈ trades, t.price ≠ 0) :
    s.savedPrice (storeTrades (fun _ => 0) trades) = s.closingPrice trades := by
  have hslot : (trades.filter fun t => t.symbolId % maxSymbols = s.symbolId) =
      trades.filter fun t => t.symbolId = s.symbolId :=
    List.filter_congr fun t ht => by rw [Nat.mod_eq_of_lt (hid t ht)]
  rw [SymbolInfo.savedPrice, storeTrades_eq, hslot, SymbolInfo.closingPrice]
  cases hlast : (trades.filter fun t => t.symbolId = s.symbolId).getLast? with
  | none => exact if_pos rfl
  | some t => exact if_neg (hprice t (List.mem_filter.1 (List.mem_of_getLast? hlast)).1)

/-- The file has the closing price of every symbol iff every symbol has an id below
`MAX_SYMBOLS`. -/
theorem closing_prices_iff (symbols : List SymbolInfo) {trades : List Trade}
    (hlisted : ∀ t ∈ trades, ∃ s ∈ symbols, s.symbolId = t.symbolId)
    (hprice : ∀ t ∈ trades, t.price ≠ 0) :
    saveEndOfDayCSV (storeTrades (fun _ => 0) trades) symbols = .ok (closingCSV trades symbols) ↔
      ∀ s ∈ symbols, s.symbolId < maxSymbols := by
  constructor
  · intro h
    obtain ⟨lines, hlines, -⟩ := bind_eq_ok.1 h
    exact (mapM_save_eq_ok.1 hlines).1
  · intro hsymbols
    have hid : ∀ t ∈ trades, t.symbolId < maxSymbols := by
      intro t ht
      obtain ⟨s, hs, heq⟩ := hlisted t ht
      exact heq ▸ hsymbols s hs
    refine bind_eq_ok.2 ⟨_, mapM_save_eq_ok.2 ⟨hsymbols, rfl⟩, ?_⟩
    simp only [storeTrades_closingPrice hid hprice]
    rfl

/-- Two symbols of the two groups that share a slot, named by their ids. -/
def sharingSymbols : List SymbolInfo :=
  [⟨"A", 0, 100, 90, 110⟩, ⟨"B", 1024, 200, 180, 220⟩]

/-- A trade of one unit in `symbolId`. -/
def tradeIn (symbolId price : ℕ) : Trade :=
  ⟨1, 0, price, 1, 2, symbolId, 1⟩

theorem closing_prices_iff_twoSymbols :
    saveEndOfDayCSV (storeTrades (fun _ => 0) [tradeIn 1 150, tradeIn 0 95, tradeIn 1 140])
        [⟨"A", 0, 100, 90, 110⟩, ⟨"B", 1, 200, 180, 220⟩, ⟨"C", 1023, 7, 6, 8⟩] =
      .ok (closingCSV [tradeIn 1 150, tradeIn 0 95, tradeIn 1 140]
        [⟨"A", 0, 100, 90, 110⟩, ⟨"B", 1, 200, 180, 220⟩, ⟨"C", 1023, 7, 6, 8⟩]) :=
  (closing_prices_iff _ (by decide) (by decide)).2 (by decide)

/-- The symbol 1024 is read outside the array, and its trade has been stored at the slot of the
symbol 0, which would be saved with that price. -/
theorem closing_price_lost :
    (sharingSymbols.map SymbolInfo.symbolId).Nodup ∧
    (∀ s ∈ sharingSymbols, s.symbolId < totalSymbols) ∧
    saveEndOfDayCSV (storeTrades (fun _ => 0) [tradeIn 1024 210]) sharingSymbols ≠
      .ok (closingCSV [tradeIn 1024 210] sharingSymbols) ∧
    saveEndOfDayCSV (storeTrades (fun _ => 0) [tradeIn 1024 210]) sharingSymbols =
      .error .badAccess ∧
    ∀ s ∈ sharingSymbols.head?,
      s.savedPrice (storeTrades (fun _ => 0) [tradeIn 1024 210]) = 210 ∧
      s.closingPrice [tradeIn 1024 210] = 100 := by
  have hfault : saveEndOfDayCSV (storeTrades (fun _ => 0) [tradeIn 1024 210]) sharingSymbols =
      .error .badAccess := rfl
  refine ⟨by decide, by decide, ?_, hfault, by decide⟩
  rw [hfault]
  exact fun h => by cases h

end File

end TradeX
