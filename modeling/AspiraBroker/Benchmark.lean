/-
**The benchmark's load generator.**

`bt_benchmark_run` makes up orders from a pseudo-random sequence and pushes them to the order
manager's queue.  Each symbol has a base price that a limit order moves, by whole cents, and that
no move may take to zero or below.  For every push that succeeds, the time since the one before it
is stored, and at the end the percentiles of these times are printed.

The queue and the clock are the environment: whether a push succeeds and what the clock shows is
given for each pass of the loop.  A read or write outside an array and an overflow of a price have
no result.

Main definitions:

* `Benchmark.xorshift64`, `Benchmark.quote`, `Benchmark.makeOrder` — one order;
* `Benchmark.iteration` — one pass of the loop;
* `Benchmark.btBenchmarkRun` — the function;
* `Benchmark.WellFormed` — what every order that is pushed meets;
* `Benchmark.falls` — how often the price of a symbol falls.

Main results:

* `Benchmark.makeOrder_spec`, `Benchmark.iteration_spec` — an order, a pass of the loop;
* `Benchmark.exists_run` — whole runs of the loop;
* `Benchmark.benchmark_completes` — **every benchmark completes, accounts for every order it made
  and pushes well-formed orders only**; it loses memory exactly if its last array is not granted;
* `Benchmark.prices_leave_the_grid` — **a price is a whole number of cents and one micro-dollar for
  every time it fell**.
-/

import AspiraBroker.Price
import AspiraBroker.LatencyPercentiles
import AspiraBroker.TransitionRuns

set_option relaxedAutoImplicit false
set_option autoImplicit false

namespace Benchmark

open Rounding Gateway Price LatencyStats

/-! ### Random numbers -/

/-- `xorshift64`; what it returns is also its next state. -/
def xorshift64 (x : UInt64) : UInt64 :=
  let x := x ^^^ (x <<< 13)
  let x := x ^^^ (x >>> 7)
  x ^^^ (x <<< 17)

/-! ### Symbols and first prices -/

/-- `snprintf(symbols[i], 16, "SYM%04d", i)`. -/
def symbolText (i : ℕ) : List UInt8 :=
  ("SYM".toList ++ (Nat.toDigits 10 i).leftpad 4 '0').map ascii

/-- The first price of a symbol: from `100.00` to `999.99` dollars. -/
def firstPrice (contracted : Bool) (x : UInt64) : Int64 :=
  btPriceFromDouble contracted (binary64 (100 + binary64 (binary64 (x % 90000).toNat / 100)))

/-- The loop over the symbols: their prices, and the state of the generator behind it. -/
def firstPrices (contracted : Bool) : ℕ → UInt64 → List Int64 × UInt64
  | 0, seed => ([], seed)
  | n + 1, seed =>
      let rest := firstPrices contracted n (xorshift64 seed)
      (firstPrice contracted (xorshift64 seed) :: rest.1, rest.2)

/-! ### One order -/

/-- A sum of two prices, unless it overflows. -/
def addPrice (a b : Int64) : Option Int64 :=
  if -2 ^ 63 ≤ a.toInt + b.toInt ∧ a.toInt + b.toInt < 2 ^ 63 then some (a + b) else none

/-- `BT_PRICE_FROM_DOUBLE((double)((int64_t)(x % span) - offset) / 100.0)`. -/
def delta (contracted : Bool) (span : UInt64) (offset : ℤ) (x : UInt64) : Int64 :=
  btPriceFromDouble contracted
    (binary64 (binary64 (((x % span).toNat - offset : ℤ) : ℚ) / 100))

/-- The type and price of an order, the symbol's base price and the generator behind it. -/
structure Quote where
  type : Gateway.OrderType
  price : Int64
  base : Int64
  seed : UInt64
  deriving DecidableEq

/-- A limit order: up to a dollar up or down, and the base price goes with it. -/
def limitQuote (contracted : Bool) (base : Int64) (seed : UInt64) : Option Quote :=
  (addPrice base (delta contracted 201 100 (xorshift64 seed))).map fun price =>
    ⟨.limit, if price ≤ 0 then base else price, if price ≤ 0 then base else price,
      xorshift64 seed⟩

/-- An order that is not kept: up to a quarter up or down, and the base price stays. -/
def immediateQuote (contracted : Bool) (type : Gateway.OrderType) (base : Int64)
    (seed : UInt64) : Option Quote :=
  (addPrice base (delta contracted 51 25 (xorshift64 seed))).map fun price =>
    ⟨type, price, base, xorshift64 seed⟩

/-- The choice of type and price. -/
def quote (contracted : Bool) (base : Int64) (seed : UInt64) : Option Quote :=
  if xorshift64 seed % 100 < 60 then limitQuote contracted base (xorshift64 seed)
  else if xorshift64 seed % 100 < 80 then some ⟨.market, 0, base, xorshift64 seed⟩
  else if xorshift64 seed % 100 < 90 then immediateQuote contracted .ioc base (xorshift64 seed)
  else immediateQuote contracted .fok base (xorshift64 seed)

/-- What the loop does not change: up to `256` symbols, and a number of orders that is an `int`. -/
structure Setup where
  contracted : Bool
  symbols : List (List UInt8)
  numOrders : ℕ
  some_symbol : 0 < symbols.length
  few_symbols : symbols.length ≤ 256
  numOrders_lt : numOrders < 2 ^ 31

/-- An order, the base prices and the generator behind it. -/
structure Made where
  request : OrderRequest
  basePrices : List Int64
  seed : UInt64

/-- The request with the random numbers `user`, `quantity` and `side`. -/
def request (user quantity side : UInt64) (text : List UInt8) (q : Quote) (sendTs : UInt64) :
    OrderRequest where
  requestId := 0
  userId := user % 1000 + 1
  symbol := Symbol.zero.store text
  price := q.price
  quantity := (quantity % 1000 + 1).toUInt32
  side := if side % 2 = 0 then .buy else .sell
  type := q.type
  timestamp := sendTs

/-- The first part of the loop's body. -/
def makeOrder (setup : Setup) (seed : UInt64) (basePrices : List Int64) (sendTs : UInt64) :
    Option Made := do
  let s1 := xorshift64 seed
  let symIdx := (s1 % UInt64.ofNat setup.symbols.length).toNat
  let s2 := xorshift64 s1
  let text ← setup.symbols[symIdx]?
  let s3 := xorshift64 s2
  let base ← basePrices[symIdx]?
  let q ← quote setup.contracted base s3
  let s4 := xorshift64 q.seed
  return ⟨request s2 s3 s4 text q sendTs, basePrices.set symIdx q.base, s4⟩

/-! ### The loop -/

/-- A line that the loop prints about once in a second. -/
structure Report where
  sent : ℕ
  dropped : ℕ
  rate : ℚ

/-- The variables of the loop, the orders in the queue and the lines printed. -/
structure Bench where
  seed : UInt64
  basePrices : List Int64
  intervals : List UInt64
  stats : Stats
  lastPushNs : UInt64
  lastReport : UInt64
  lastCount : UInt64
  ordersSent : ℕ
  ordersDropped : ℕ
  queued : List OrderRequest
  reports : List Report

/-- What a pass of the loop meets: the clock, whether the push succeeds, and the clock again. -/
structure Event where
  sendTs : UInt64
  pushed : Bool
  now : UInt64

namespace Bench

/-- The order is made. -/
def moved (m : Made) (b : Bench) : Bench := { b with seed := m.seed, basePrices := m.basePrices }

/-- The push succeeded. -/
def pushed (request : OrderRequest) (sendTs : UInt64) (b : Bench) : Bench :=
  { b with
    ordersSent := b.ordersSent + 1
    queued := b.queued ++ [request]
    intervals := b.intervals ++ [sendTs - b.lastPushNs]
    stats := btLatencyStatsRecord b.stats (sendTs - b.lastPushNs)
    lastPushNs := sendTs }

/-- The same, if `intervals_ns` has room for the time. -/
def sent (setup : Setup) (request : OrderRequest) (sendTs : UInt64) (b : Bench) : Option Bench :=
  if b.intervals.length < setup.numOrders then some (b.pushed request sendTs) else none

/-- The push failed. -/
def dropped (b : Bench) : Bench := { b with ordersDropped := b.ordersDropped + 1 }

/-- The line about the rate. -/
def report (now : UInt64) (b : Bench) : Bench :=
  if 1000000000 < now - b.lastReport then
    { b with
      reports := b.reports ++ [{
        sent := b.ordersSent
        dropped := b.ordersDropped
        rate := binary64 (binary64 (UInt64.ofNat b.ordersSent - b.lastCount).toNat /
          binary64 (binary64 (now - b.lastReport).toNat / 1000000000)) }]
      lastReport := now
      lastCount := UInt64.ofNat b.ordersSent }
  else b

/-- How many orders were made. -/
def made (b : Bench) : ℕ := b.ordersSent + b.ordersDropped

/-- The base price of symbol `k`. -/
def price (b : Bench) (k : ℕ) : ℤ := (b.basePrices.getD k 0).toInt

end Bench

/-- One pass of the loop. -/
def iteration (setup : Setup) (b : Bench) (e : Event) : Option Bench :=
  (makeOrder setup b.seed b.basePrices e.sendTs).bind fun m =>
    (if e.pushed then (b.moved m).sent setup m.request e.sendTs
      else some (b.moved m).dropped).map (Bench.report e.now)

/-! ### The function -/

/-- `cmp_u64`. -/
def cmpU64 (a b : UInt64) : ℤ := (if b < a then 1 else 0) - if a < b then 1 else 0

/-- `qsort` with this comparison. -/
def qsort (l : List UInt64) : List UInt64 := l.mergeSort fun a b => decide (cmpU64 a b ≤ 0)

/-- The function's arrays. -/
inductive Buffer
  | symbols
  | basePrices
  | intervals
  deriving DecidableEq

/-- What is left when the function returns: the generator, the arrays it did not free and, if the
loop was run, its variables and the percentiles that were printed. -/
structure Outcome where
  seed : UInt64
  live : List Buffer
  finished : Option (Bench × Option Percentiles)

/-- The number of symbols. -/
def symCount (numSymbols : Int32) : ℕ :=
  if numSymbols < 1 then 1 else if 256 < numSymbols then 256 else numSymbols.toInt.toNat

theorem symCount_bounds (numSymbols : Int32) :
    0 < symCount numSymbols ∧ symCount numSymbols ≤ 256 := by
  have h1 : numSymbols < 1 ↔ numSymbols.toInt < 1 := Int32.lt_iff_toInt_lt
  have h256 : 256 < numSymbols ↔ 256 < numSymbols.toInt := Int32.lt_iff_toInt_lt
  unfold symCount
  split_ifs with hlow hhigh
  · decide
  · decide
  · rw [h1] at hlow
    rw [h256] at hhigh
    omega

/-- What the function sets up before the loop. -/
def setup (contracted : Bool) (numOrders numSymbols : Int32) : Setup where
  contracted := contracted
  symbols := (List.range (symCount numSymbols)).map symbolText
  numOrders := numOrders.toInt.toNat
  some_symbol := by
    rw [List.length_map, List.length_range]
    exact (symCount_bounds numSymbols).1
  few_symbols := by
    rw [List.length_map, List.length_range]
    exact (symCount_bounds numSymbols).2
  numOrders_lt := by
    have := numOrders.toInt_lt
    omega

/-- The variables before the loop. -/
def bench (basePrices : List Int64) (seed benchStart : UInt64) : Bench where
  seed := seed
  basePrices := basePrices
  intervals := []
  stats := btLatencyStatsInit
  lastPushNs := benchStart
  lastReport := benchStart
  lastCount := 0
  ordersSent := 0
  ordersDropped := 0
  queued := []
  reports := []

/-- The variables before the loop, with the first prices drawn. -/
def started (contracted : Bool) (numSymbols : Int32) (seed benchStart : UInt64) : Bench :=
  bench (firstPrices contracted (symCount numSymbols) seed).1
    (firstPrices contracted (symCount numSymbols) seed).2 benchStart

/-- What follows the loop: the percentiles, and the arrays are freed. -/
def finish (b : Bench) : Option Outcome :=
  if 1 < b.intervals.length then
    (btLatencyPercentiles (qsort b.intervals)).map fun p => ⟨b.seed, [], some (b, some p)⟩
  else
    some ⟨b.seed, [], some (b, none)⟩

/-- `bt_benchmark_run`; `granted` says which of the arrays there is memory for. -/
def btBenchmarkRun (contracted : Bool) (numOrders numSymbols : Int32) (queue : Bool)
    (granted : Buffer → Bool) (seed benchStart : UInt64) (events : List Event) : Option Outcome :=
  if queue = false ∨ numOrders ≤ 0 then some ⟨seed, [], none⟩
  else if granted .symbols = false ∨ granted .basePrices = false then some ⟨seed, [], none⟩
  else if granted .intervals = false then
    -- the two arrays before it are not freed
    some ⟨(firstPrices contracted (symCount numSymbols) seed).2, [.symbols, .basePrices], none⟩
  else
    (Transition.run (iteration (setup contracted numOrders numSymbols))
      (started contracted numSymbols seed benchStart) events).bind finish

/-! ### Moves of a price -/

/-- An amount of cents becomes that amount of micro-dollars, or one more below zero. -/
theorem toInt_delta (contracted : Bool) {span x : UInt64} {offset k : ℤ}
    (hk : ((x % span).toNat : ℤ) - offset = k) (habs : |k| ≤ 100) :
    (delta contracted span offset x).toInt = if 0 ≤ k then 10000 * k else 10000 * k + 1 := by
  have hexact : binary64 (k : ℚ) = k := isRounding_binary64.exact k (by omega)
  have hmicro : (k / 100 : ℚ) * btPriceScale = (10000 * k : ℤ) := by
    rw [btPriceScale]
    push_cast
    ring
  have hsmall : |10000 * k| ≤ 2 ^ 50 := by
    rw [abs_mul, abs_of_pos (by decide)]
    omega
  rw [delta, hk, hexact, toInt_fromDouble_binary64 contracted hsmall hmicro]
  split_ifs <;> omega

/-- A first price is a number of cents. -/
theorem toInt_firstPrice (contracted : Bool) (x : UInt64) :
    (firstPrice contracted x).toInt = 10000 * (10000 + (x % 90000).toNat) := by
  have hk : (x % 90000).toNat < 90000 := by
    rw [UInt64.toNat_mod]
    exact Nat.mod_lt _ (by decide)
  rw [firstPrice]
  generalize (x % 90000).toNat = k at *
  have hk' : (k : ℚ) < 90000 := by exact_mod_cast hk
  have hk0 : (0 : ℚ) ≤ k := k.cast_nonneg
  have hexact : binary64 k = k := binary64_natCast (by omega)
  rw [hexact]
  -- the two roundings lose less than an eighth of a micro-dollar
  have hquot := isRounding_binary64.error (k / 100)
  rw [abs_of_nonneg (a := (k / 100 : ℚ)) (by positivity), abs_le] at hquot
  have hsum := isRounding_binary64.error (100 + binary64 (k / 100))
  rw [abs_of_nonneg (a := 100 + binary64 (k / 100)) (by linarith), abs_le] at hsum
  have hnear : |binary64 (100 + binary64 (k / 100)) * btPriceScale -
      (10000 * (10000 + k) : ℤ)| ≤ 1 / 8 := by
    rw [btPriceScale, abs_le]
    push_cast
    constructor <;> linarith
  rw [toInt_fromDouble_of_near contracted (abs_le.2 (by omega)) hnear, if_pos (by omega)]

theorem addPrice_eq {a b : Int64} (hlow : -2 ^ 63 ≤ a.toInt + b.toInt)
    (hhigh : a.toInt + b.toInt < 2 ^ 63) :
    ∃ c, addPrice a b = some c ∧ c.toInt = a.toInt + b.toInt := by
  refine ⟨a + b, if_pos ⟨hlow, hhigh⟩, ?_⟩
  rw [Int64.toInt_add]
  exact Int.bmod_eq_of_le (by omega) (by omega)

/-- What the choice of type and price can do to a base price. -/
structure Quote.Fits (base : Int64) (q : Quote) : Prop where
  pos : 0 < q.base.toInt
  rise : q.base.toInt ≤ base.toInt + 1000000
  cents : (q.base.toInt - if q.base.toInt < base.toInt then 1 else 0) % 10000 =
    base.toInt % 10000
  limit : q.type = .limit → q.price = q.base
  market : q.type = .market → q.price = 0
  immediate : q.type = .ioc ∨ q.type = .fok → base.toInt - 250000 < q.price.toInt

/-- A quote that leaves the base price. -/
theorem Quote.Fits.of_base_eq {base : Int64} {q : Quote} (hpos : 0 < base.toInt)
    (hbase : q.base = base) (hlimit : q.type = .limit → q.price = q.base)
    (hmarket : q.type = .market → q.price = 0)
    (himmediate : q.type = .ioc ∨ q.type = .fok → base.toInt - 250000 < q.price.toInt) :
    q.Fits base where
  pos := hbase ▸ hpos
  rise := by
    rw [hbase]
    omega
  cents := by rw [hbase, if_neg (lt_irrefl _), sub_zero]
  limit := hlimit
  market := hmarket
  immediate := himmediate

section Quotes

variable (contracted : Bool) {base : Int64} (hpos : 0 < base.toInt) (hle : base.toInt ≤ 2 ^ 62)
  (seed : UInt64)

include hpos hle

/-- A base price and a move of up to `offset` cents. -/
theorem exists_moved (s : UInt64) (offset : ℤ) (hs : (s.toNat : ℤ) = 2 * offset + 1)
    (hoffset : offset ≤ 100) (x : UInt64) :
    ∃ c, addPrice base (delta contracted s offset x) = some c ∧
      ∃ k : ℤ, -offset ≤ k ∧ k ≤ offset ∧
        c.toInt = base.toInt + if 0 ≤ k then 10000 * k else 10000 * k + 1 := by
  have hlt : (x % s).toNat < s.toNat := by
    rw [UInt64.toNat_mod]
    exact Nat.mod_lt _ (by omega)
  have hk : -offset ≤ (x % s).toNat - offset ∧ (x % s).toNat - offset ≤ offset := by omega
  obtain ⟨k, hx⟩ : ∃ k : ℤ, ((x % s).toNat : ℤ) - offset = k := ⟨_, rfl⟩
  rw [hx] at hk
  have hdelta := toInt_delta contracted hx (abs_le.2 (by omega))
  obtain ⟨c, hc, hsum⟩ := addPrice_eq (a := base) (b := delta contracted s offset x)
    (by split_ifs at hdelta <;> omega) (by split_ifs at hdelta <;> omega)
  exact ⟨c, hc, k, hk.1, hk.2, hdelta ▸ hsum⟩

theorem limitQuote_spec : ∃ q, limitQuote contracted base seed = some q ∧ q.Fits base := by
  obtain ⟨c, hc, k, hlow, hhigh, hmoved⟩ :=
    exists_moved contracted hpos hle 201 100 rfl (by decide) (xorshift64 seed)
  refine ⟨_, by rw [limitQuote, hc, Option.map_some], ?_⟩
  have hzero : c ≤ 0 ↔ c.toInt ≤ 0 := Int64.le_iff_toInt_le
  by_cases hc0 : c ≤ 0
  · -- the price would not be positive, and stays
    simp only [if_pos hc0]
    exact .of_base_eq hpos rfl (fun _ => rfl) (by simp) (by simp)
  · simp only [if_neg hc0]
    rw [hzero] at hc0
    refine ⟨not_le.1 hc0, ?_, ?_, fun _ => rfl, by simp, by simp⟩
    · change c.toInt ≤ _
      split_ifs at hmoved <;> omega
    · change (c.toInt - if c.toInt < base.toInt then 1 else 0) % 10000 = _
      split_ifs at hmoved ⊢ <;> omega

theorem immediateQuote_spec {type : Gateway.OrderType} (hlimit : type ≠ .limit)
    (hmarket : type ≠ .market) :
    ∃ q, immediateQuote contracted type base seed = some q ∧ q.Fits base := by
  obtain ⟨c, hc, k, hlow, hhigh, hmoved⟩ :=
    exists_moved contracted hpos hle 51 25 rfl (by decide) (xorshift64 seed)
  refine ⟨_, by rw [immediateQuote, hc, Option.map_some], .of_base_eq hpos rfl
    (fun h => absurd h hlimit) (fun h => absurd h hmarket) fun _ => ?_⟩
  change _ < c.toInt
  split_ifs at hmoved <;> omega

/-- **The choice of type and price.** -/
theorem quote_spec : ∃ q, quote contracted base seed = some q ∧ q.Fits base := by
  unfold quote
  split_ifs
  · exact limitQuote_spec contracted hpos hle _
  · exact ⟨_, rfl, .of_base_eq hpos rfl (by simp) (fun _ => rfl) (by simp)⟩
  · exact immediateQuote_spec contracted hpos hle _ (by decide) (by decide)
  · exact immediateQuote_spec contracted hpos hle _ (by decide) (by decide)

end Quotes

/-! ### One order, one pass -/

/-- What every order that is pushed meets. -/
structure WellFormed (symbols : List (List UInt8)) (req : OrderRequest) : Prop where
  user : 1 ≤ req.userId.toNat ∧ req.userId.toNat ≤ 1000
  quantity : 1 ≤ req.quantity.toNat ∧ req.quantity.toNat ≤ 1000
  symbol : ∃ text ∈ symbols, req.symbol = Symbol.zero.store text
  limit : req.type = .limit → 0 < req.price.toInt
  market : req.type = .market → req.price = 0
  immediate : req.type = .ioc ∨ req.type = .fok → -250000 < req.price.toInt

/-- The base prices after `n` orders. -/
structure Priced (symbols n : ℕ) (basePrices : List Int64) : Prop where
  length : basePrices.length = symbols
  pos : ∀ p ∈ basePrices, 0 < p.toInt
  le : ∀ p ∈ basePrices, p.toInt ≤ 1000000000 + n * 1000000

/-- Apart from one micro-dollar at a fall, a price moves by cents. -/
def ByCents (old new : ℤ) : Prop := (new - if new < old then 1 else 0) % 10000 = old % 10000

theorem ByCents.refl (p : ℤ) : ByCents p p := by rw [ByCents, if_neg (lt_irrefl p), sub_zero]

theorem toNat_mod_add_one (x : UInt64) : (x % 1000 + 1).toNat = x.toNat % 1000 + 1 := by
  have hlt : x.toNat % 1000 < 1000 := Nat.mod_lt _ (by decide)
  rw [UInt64.toNat_add, UInt64.toNat_mod]
  change (x.toNat % 1000 + 1) % 2 ^ 64 = _
  omega

/-- The request of a quote that fits. -/
theorem wellFormed_request {symbols : List (List UInt8)} {text : List UInt8}
    (htext : text ∈ symbols) {base : Int64} (hpos : 0 < base.toInt) {q : Quote}
    (hq : q.Fits base) (user quantity side sendTs : UInt64) :
    WellFormed symbols (request user quantity side text q sendTs) where
  user := by
    rw [request, toNat_mod_add_one]
    omega
  quantity := by
    rw [request, UInt64.toNat_toUInt32, toNat_mod_add_one]
    omega
  symbol := ⟨text, htext, rfl⟩
  limit := fun h => by
    rw [request, hq.limit h]
    exact hq.pos
  market := hq.market
  immediate := fun h => by
    have := hq.immediate h
    change -250000 < q.price.toInt
    omega

/-- A quote that fits moves the price of its symbol. -/
theorem Priced.set {symbols n i : ℕ} {basePrices : List Int64} (h : Priced symbols n basePrices)
    {base : Int64} (hbase : basePrices[i]? = some base) {q : Quote} (hq : q.Fits base) :
    Priced symbols (n + 1) (basePrices.set i q.base) where
  length := by rw [List.length_set, h.length]
  pos := by
    intro p hp
    rcases List.mem_or_eq_of_mem_set hp with hp | rfl
    · exact h.pos p hp
    · exact hq.pos
  le := by
    intro p hp
    rcases List.mem_or_eq_of_mem_set hp with hp | rfl
    · have := h.le p hp
      omega
    · have := h.le base (List.mem_of_getElem? hbase)
      have := hq.rise
      omega

theorem byCents_set {basePrices : List Int64} {i : ℕ} {base : Int64}
    (hbase : basePrices[i]? = some base) {q : Quote} (hq : q.Fits base) (k : ℕ) :
    ByCents (basePrices.getD k 0).toInt ((basePrices.set i q.base).getD k 0).toInt := by
  rw [List.getD_eq_getElem?_getD, List.getD_eq_getElem?_getD, List.getElem?_set]
  split_ifs with hik hlt
  · subst hik
    rw [hbase]
    exact hq.cents
  · rw [List.getElem?_eq_none (by omega)]
    exact .refl _
  · exact .refl _

section Orders

variable (setup : Setup)

/-- **One order.** -/
theorem makeOrder_spec {n : ℕ} (hn : n < 2 ^ 31) {basePrices : List Int64}
    (hprices : Priced setup.symbols.length n basePrices) (seed sendTs : UInt64) :
    ∃ m, makeOrder setup seed basePrices sendTs = some m ∧
      WellFormed setup.symbols m.request ∧ Priced setup.symbols.length (n + 1) m.basePrices ∧
      ∀ k, ByCents (basePrices.getD k 0).toInt (m.basePrices.getD k 0).toInt := by
  have hfew := setup.few_symbols
  have hidx : (xorshift64 seed % UInt64.ofNat setup.symbols.length).toNat <
      setup.symbols.length := by
    rw [UInt64.toNat_mod, UInt64.toNat_ofNat', Nat.mod_eq_of_lt (b := 2 ^ 64) (by omega)]
    exact Nat.mod_lt _ setup.some_symbol
  obtain ⟨text, htext⟩ : ∃ text,
      setup.symbols[(xorshift64 seed % UInt64.ofNat setup.symbols.length).toNat]? = some text :=
    ⟨_, List.getElem?_eq_getElem hidx⟩
  obtain ⟨base, hbase⟩ : ∃ base,
      basePrices[(xorshift64 seed % UInt64.ofNat setup.symbols.length).toNat]? = some base :=
    ⟨_, List.getElem?_eq_getElem (hprices.length ▸ hidx)⟩
  have hpos := hprices.pos base (List.mem_of_getElem? hbase)
  have hle := hprices.le base (List.mem_of_getElem? hbase)
  obtain ⟨q, hq, hfits⟩ := quote_spec setup.contracted hpos (by omega)
    (xorshift64 (xorshift64 (xorshift64 seed)))
  have hmake : makeOrder setup seed basePrices sendTs = some
      { request := request (xorshift64 (xorshift64 seed))
          (xorshift64 (xorshift64 (xorshift64 seed))) (xorshift64 q.seed) text q sendTs
        basePrices :=
          basePrices.set (xorshift64 seed % UInt64.ofNat setup.symbols.length).toNat q.base
        seed := xorshift64 q.seed } := by
    simp only [makeOrder, htext, hbase, hq, Option.bind_eq_bind, Option.bind_some, Option.pure_def]
  exact ⟨_, hmake, wellFormed_request (List.mem_of_getElem? htext) hpos hfits _ _ _ _,
    hprices.set hbase hfits, byCents_set hbase hfits⟩

/-- What holds in every pass of the loop. -/
structure Sound (benchStart : UInt64) (b : Bench) : Prop where
  prices : Priced setup.symbols.length b.made b.basePrices
  queued : b.queued.length = b.ordersSent
  stored : b.intervals.length = b.ordersSent
  orders : ∀ req ∈ b.queued, WellFormed setup.symbols req
  stats : b.stats = recordAll b.intervals
  elapsed : b.lastPushNs = benchStart + b.stats.sumNs

variable {setup} {benchStart : UInt64} {b : Bench}

/-- The line about the rate changes nothing that counts. -/
theorem Sound.report (h : Sound setup benchStart b) (now : UInt64) :
    Sound setup benchStart (b.report now) := by
  unfold Bench.report
  split
  · exact ⟨h.prices, h.queued, h.stored, h.orders, h.stats, h.elapsed⟩
  · exact h

theorem made_report (now : UInt64) : (b.report now).made = b.made := by
  unfold Bench.report
  split <;> rfl

theorem price_report (now : UInt64) (k : ℕ) : (b.report now).price k = b.price k := by
  unfold Bench.report
  split <;> rfl

theorem recordAll_append (samples : List UInt64) (x : UInt64) :
    recordAll (samples ++ [x]) = btLatencyStatsRecord (recordAll samples) x := List.foldl_append

/-- An order that is pushed. -/
theorem Sound.pushed (h : Sound setup benchStart b) {m : Made}
    (hwell : WellFormed setup.symbols m.request)
    (hprices : Priced setup.symbols.length (b.made + 1) m.basePrices) (sendTs : UInt64) :
    Sound setup benchStart ((b.moved m).pushed m.request sendTs) where
  prices := by
    have hmade : ((b.moved m).pushed m.request sendTs).made = b.made + 1 := Nat.add_right_comm _ _ _
    rw [hmade]
    exact hprices
  queued := List.length_append.trans (congrArg (· + 1) h.queued)
  stored := List.length_append.trans (congrArg (· + 1) h.stored)
  orders := by
    intro req hreq
    rcases List.mem_append.1 hreq with hreq | hreq
    · exact h.orders req hreq
    · rw [List.mem_singleton.1 hreq]
      exact hwell
  stats := by
    change btLatencyStatsRecord b.stats _ = recordAll (b.intervals ++ [_])
    rw [recordAll_append, ← h.stats]
  elapsed := by
    change sendTs = benchStart + (b.stats.sumNs + (sendTs - b.lastPushNs))
    rw [← UInt64.add_assoc, ← h.elapsed, UInt64.add_comm, UInt64.sub_add_cancel]

/-- An order that is dropped: the price has moved all the same. -/
theorem Sound.dropped (h : Sound setup benchStart b) {m : Made}
    (hprices : Priced setup.symbols.length (b.made + 1) m.basePrices) :
    Sound setup benchStart (b.moved m).dropped :=
  ⟨hprices, h.queued, h.stored, h.orders, h.stats, h.elapsed⟩

/-- **One pass of the loop.** -/
theorem iteration_spec (h : Sound setup benchStart b) (hmade : b.made < setup.numOrders)
    (e : Event) : ∃ b', iteration setup b e = some b' ∧ Sound setup benchStart b' ∧
      b'.made = b.made + 1 ∧ ∀ k, ByCents (b.price k) (b'.price k) := by
  have hlt := setup.numOrders_lt
  obtain ⟨m, hm, hwell, hprices, hcents⟩ :=
    makeOrder_spec setup (by omega) h.prices b.seed e.sendTs
  rw [iteration, hm, Option.bind_some]
  cases e.pushed with
  | true =>
      have hroom : (b.moved m).intervals.length < setup.numOrders := by
        have hle : b.ordersSent ≤ b.made := Nat.le_add_right _ _
        have hstored : (b.moved m).intervals.length = b.ordersSent := h.stored
        omega
      rw [if_pos rfl, Bench.sent, if_pos hroom, Option.map_some]
      refine ⟨_, rfl, (h.pushed hwell hprices _).report _, ?_, fun k => ?_⟩
      · rw [made_report]
        exact Nat.add_right_comm _ _ _
      · rw [price_report]
        exact hcents k
  | false =>
      rw [if_neg Bool.false_ne_true, Option.map_some]
      refine ⟨_, rfl, (h.dropped hprices).report _, ?_, fun k => ?_⟩
      · rw [made_report]
        rfl
      · rw [price_report]
        exact hcents k

end Orders

/-! ### Whole runs -/

/-- How often the price of symbol `k` falls in the passes `es`. -/
def falls (setup : Setup) (k : ℕ) : Bench → List Event → ℕ
  | _, [] => 0
  | b, e :: es =>
      match iteration setup b e with
      | none => 0
      | some b' => (if b'.price k < b.price k then 1 else 0) + falls setup k b' es

section Runs

variable {setup : Setup} {benchStart : UInt64} {b : Bench}

/-- **Whole runs of the loop.** -/
theorem exists_run (h : Sound setup benchStart b) {es : List Event}
    (hmade : b.made + es.length ≤ setup.numOrders) :
    ∃ b', Transition.run (iteration setup) b es = some b' ∧ Sound setup benchStart b' ∧
      b'.made = b.made + es.length ∧
      ∀ k, (b'.price k - falls setup k b es) % 10000 = b.price k % 10000 := by
  induction es generalizing b with
  | nil =>
      refine ⟨b, rfl, h, rfl, fun k => ?_⟩
      rw [falls, Nat.cast_zero, sub_zero]
  | cons e es ih =>
      rw [List.length_cons] at hmade
      obtain ⟨b₁, hstep, h₁, hmade₁, hcents⟩ := iteration_spec h (by omega) e
      obtain ⟨b', hrun, h', hmade', hfalls⟩ := ih h₁ (by omega)
      refine ⟨b', ?_, h', ?_, fun k => ?_⟩
      · rw [Transition.run_cons_eq hstep]
        exact hrun
      · rw [List.length_cons]
        omega
      · -- what the later passes leave is the price behind the first
        have hfirst := hcents k
        have hrest := hfalls k
        unfold ByCents at hfirst
        simp only [falls, hstep]
        split_ifs at hfirst ⊢ <;> push_cast <;> omega

end Runs

/-! ### First prices -/

theorem length_firstPrices (contracted : Bool) (n : ℕ) (seed : UInt64) :
    (firstPrices contracted n seed).1.length = n := by
  induction n generalizing seed with
  | zero => rfl
  | succ n ih => rw [firstPrices, List.length_cons, ih]

/-- A first price is a number of cents, from `100.00` to `999.99` dollars. -/
theorem mem_firstPrices {contracted : Bool} {n : ℕ} {seed : UInt64} {p : Int64}
    (hp : p ∈ (firstPrices contracted n seed).1) :
    0 < p.toInt ∧ p.toInt ≤ 1000000000 ∧ p.toInt % 10000 = 0 := by
  induction n generalizing seed with
  | zero => cases hp
  | succ n ih =>
      rcases List.mem_cons.1 hp with rfl | hp
      · have hlt : (xorshift64 seed % 90000).toNat < 90000 := by
          rw [UInt64.toNat_mod]
          exact Nat.mod_lt _ (by decide)
        rw [toInt_firstPrice]
        omega
      · exact ih hp

section Start

variable (contracted : Bool) (numOrders numSymbols : Int32) (seed benchStart : UInt64)

theorem sound_started : Sound (setup contracted numOrders numSymbols) benchStart
    (started contracted numSymbols seed benchStart) where
  prices :=
    { length := by
        change (firstPrices _ _ _).1.length = ((List.range _).map _).length
        rw [length_firstPrices, List.length_map, List.length_range]
      pos := fun p hp => (mem_firstPrices hp).1
      le := fun p hp => (mem_firstPrices hp).2.1.trans (by omega) }
  queued := rfl
  stored := rfl
  orders := fun req hreq => by cases hreq
  stats := rfl
  elapsed := (UInt64.add_zero benchStart).symm

theorem price_started (k : ℕ) :
    (started contracted numSymbols seed benchStart).price k % 10000 = 0 := by
  change ((firstPrices contracted (symCount numSymbols) seed).1.getD k 0).toInt % 10000 = 0
  rw [List.getD_eq_getElem?_getD]
  cases hp : (firstPrices contracted (symCount numSymbols) seed).1[k]? with
  | none => rfl
  | some p => exact (mem_firstPrices (List.mem_of_getElem? hp)).2.2

end Start

/-! ### Sorting the times -/

theorem cmpU64_le_iff (a b : UInt64) : cmpU64 a b ≤ 0 ↔ a ≤ b := by
  have h₁ : b < a ↔ b.toNat < a.toNat := UInt64.lt_iff_toNat_lt
  have h₂ : a < b ↔ a.toNat < b.toNat := UInt64.lt_iff_toNat_lt
  rw [cmpU64, UInt64.le_iff_toNat_le]
  simp only [h₁, h₂]
  split_ifs <;> omega

theorem qsort_sorted (l : List UInt64) : (qsort l).Pairwise (· ≤ ·) := by
  have hcmp : (fun a b => decide (cmpU64 a b ≤ 0)) = fun a b => decide (a ≤ b) := by
    funext a b
    exact decide_eq_decide.2 (cmpU64_le_iff a b)
  have htrans (a b c : UInt64) : decide (a ≤ b) → decide (b ≤ c) → decide (a ≤ c) := by
    simpa using UInt64.le_trans
  have htotal (a b : UInt64) : decide (a ≤ b) || decide (b ≤ a) := by
    simpa using UInt64.le_total a b
  rw [qsort, hcmp]
  exact (List.pairwise_mergeSort htrans htotal l).imp of_decide_eq_true

/-! ### The function -/

/-- What a benchmark that was run to its end leaves. -/
structure Complete (contracted : Bool) (numOrders numSymbols : Int32) (benchStart : UInt64)
    (b : Bench) (percentiles : Option Percentiles) : Prop where
  sound : Sound (setup contracted numOrders numSymbols) benchStart b
  accounted : b.ordersSent + b.ordersDropped = numOrders.toInt.toNat
  printed : percentiles.isSome ↔ 1 < b.ordersSent

section Function

variable (contracted : Bool) (numOrders numSymbols : Int32) (queue : Bool)
  (granted : Buffer → Bool) (seed benchStart : UInt64) (events : List Event)

/-- What follows the loop. -/
theorem finish_spec {b : Bench}
    (hsound : Sound (setup contracted numOrders numSymbols) benchStart b)
    (hmade : b.made = numOrders.toInt.toNat) :
    ∃ percentiles, finish b = some ⟨b.seed, [], some (b, percentiles)⟩ ∧
      Complete contracted numOrders numSymbols benchStart b percentiles := by
  have hstored := hsound.stored
  unfold finish
  split
  case isTrue hmany =>
    have hperm := List.mergeSort_perm b.intervals fun x y => decide (cmpU64 x y ≤ 0)
    have hlength : (qsort b.intervals).length = b.intervals.length := hperm.length_eq
    have hlt := numOrders.toInt_lt
    have hle : b.ordersSent ≤ b.made := Nat.le_add_right _ _
    obtain ⟨v50, v95, v99, v999, hresult, -⟩ :=
      exists_percentiles (qsort_sorted b.intervals) (by omega) (by omega)
    rw [hresult, Option.map_some]
    refine ⟨some _, rfl, hsound, hmade, ?_⟩
    rw [Option.isSome_some, ← hstored]
    exact ⟨fun _ => hmany, fun _ => rfl⟩
  case isFalse hfew =>
    refine ⟨none, rfl, hsound, hmade, ?_⟩
    rw [Option.isSome_none, ← hstored]
    exact ⟨fun h => absurd h Bool.false_ne_true, fun h => absurd h hfew⟩

/-- The loop and what follows it. -/
theorem exists_finished (hlen : events.length = numOrders.toInt.toNat) :
    ∃ b percentiles,
      (Transition.run (iteration (setup contracted numOrders numSymbols))
        (started contracted numSymbols seed benchStart) events).bind finish =
          some ⟨b.seed, [], some (b, percentiles)⟩ ∧
      Complete contracted numOrders numSymbols benchStart b percentiles := by
  have hmade : (started contracted numSymbols seed benchStart).made + events.length =
      numOrders.toInt.toNat := (Nat.zero_add _).trans hlen
  obtain ⟨b, hrun, hsound, hall, -⟩ :=
    exists_run (sound_started contracted numOrders numSymbols seed benchStart) hmade.le
  obtain ⟨percentiles, hfinish, hcomplete⟩ :=
    finish_spec contracted numOrders numSymbols benchStart hsound (hall.trans hmade)
  refine ⟨b, percentiles, ?_, hcomplete⟩
  rw [hrun, Option.bind_some, hfinish]

/-- **Every benchmark completes, unless an array is not granted; it accounts for every order it
made, pushes well-formed orders only, and loses memory exactly if the last array is not
granted.** -/
theorem benchmark_completes (hlen : events.length = numOrders.toInt.toNat) :
    ∃ outcome,
      btBenchmarkRun contracted numOrders numSymbols queue granted seed benchStart events =
        some outcome ∧
      (∀ b percentiles, outcome.finished = some (b, percentiles) →
        Complete contracted numOrders numSymbols benchStart b percentiles) ∧
      (outcome.finished.isSome ↔
        queue = true ∧ 0 < numOrders ∧ ∀ buffer, granted buffer = true) ∧
      (outcome.live = [] ↔ ¬ (queue = true ∧ 0 < numOrders ∧ granted .symbols = true ∧
        granted .basePrices = true ∧ granted .intervals = false)) := by
  have hrun (h : queue = true ∧ 0 < numOrders) : ¬ (queue = false ∨ numOrders ≤ 0) := by
    rw [not_or, Int32.not_le]
    exact ⟨by rw [h.1]; decide, h.2⟩
  unfold btBenchmarkRun
  split_ifs with hargs hfirst hlast
  · -- the function returns at once
    exact ⟨_, rfl, fun _ _ h => (Option.some_ne_none _ h.symm).elim,
      ⟨fun h => absurd h Bool.false_ne_true, fun h => absurd hargs (hrun ⟨h.1, h.2.1⟩)⟩,
      ⟨fun _ h => hrun ⟨h.1, h.2.1⟩ hargs, fun _ => rfl⟩⟩
  · -- one of the first two arrays is missing, and the other one is freed
    have hmissing : ¬ (granted .symbols = true ∧ granted .basePrices = true) := by
      rcases hfirst with h | h <;> simp [h]
    exact ⟨_, rfl, fun _ _ h => (Option.some_ne_none _ h.symm).elim,
      ⟨fun h => absurd h Bool.false_ne_true, fun h => absurd ⟨h.2.2 _, h.2.2 _⟩ hmissing⟩,
      ⟨fun _ h => hmissing ⟨h.2.2.1, h.2.2.2.1⟩, fun _ => rfl⟩⟩
  · -- the last array is missing, and the first two are lost
    rw [not_or, Bool.not_eq_false, Int32.not_le] at hargs
    rw [not_or, Bool.not_eq_false, Bool.not_eq_false] at hfirst
    refine ⟨_, rfl, fun _ _ h => (Option.some_ne_none _ h.symm).elim,
      ⟨fun h => absurd h Bool.false_ne_true, fun h => ?_⟩,
      ⟨fun h => (List.cons_ne_nil _ _ h).elim,
        fun h => absurd ⟨hargs.1, hargs.2, hfirst.1, hfirst.2, hlast⟩ h⟩⟩
    exact absurd (h.2.2 .intervals) (by rw [hlast]; decide)
  · rw [not_or, Bool.not_eq_false, Int32.not_le] at hargs
    rw [not_or, Bool.not_eq_false, Bool.not_eq_false] at hfirst
    rw [Bool.not_eq_false] at hlast
    obtain ⟨b, percentiles, hfinished, hcomplete⟩ :=
      exists_finished contracted numOrders numSymbols seed benchStart events hlen
    refine ⟨_, hfinished, ?_, ?_, ?_⟩
    · rintro b' percentiles' h
      obtain ⟨rfl, rfl⟩ := Prod.mk.inj (Option.some.inj h)
      exact hcomplete
    · refine ⟨fun _ => ⟨hargs.1, hargs.2, fun buffer => ?_⟩, fun _ => rfl⟩
      cases buffer with
      | symbols => exact hfirst.1
      | basePrices => exact hfirst.2
      | intervals => exact hlast
    · exact ⟨fun _ h => absurd h.2.2.2.2 (by rw [hlast]; decide), fun _ => rfl⟩

end Function

/-- One order that is pushed and one that is dropped. -/
theorem benchmark_completes_two :
    ∃ outcome,
      btBenchmarkRun false 2 1 true (fun _ => true) 123456789 0 [⟨5, true, 6⟩, ⟨8, false, 9⟩] =
        some outcome ∧
      (∀ b percentiles, outcome.finished = some (b, percentiles) →
        Complete false 2 1 0 b percentiles) ∧ outcome.finished.isSome ∧ outcome.live = [] := by
  obtain ⟨outcome, hrun, hcomplete, hfinished, hlive⟩ :=
    benchmark_completes false 2 1 true (fun _ => true) 123456789 0 [⟨5, true, 6⟩, ⟨8, false, 9⟩]
      (by decide)
  exact ⟨outcome, hrun, hcomplete, hfinished.2 ⟨rfl, by decide, fun _ => rfl⟩,
    hlive.2 fun h => absurd h.2.2.2.2 (by decide)⟩

/-- **A price is a whole number of cents, and one micro-dollar for every time it fell.** -/
theorem prices_leave_the_grid (contracted : Bool) (numOrders numSymbols : Int32)
    (seed benchStart : UInt64) (events : List Event)
    (hlen : events.length ≤ numOrders.toInt.toNat) :
    ∃ b, Transition.run (iteration (setup contracted numOrders numSymbols))
        (started contracted numSymbols seed benchStart) events = some b ∧
      ∀ k, b.price k % 10000 = falls (setup contracted numOrders numSymbols) k
        (started contracted numSymbols seed benchStart) events % 10000 := by
  have hmade : (started contracted numSymbols seed benchStart).made + events.length ≤
      numOrders.toInt.toNat := (Nat.zero_add _).trans_le hlen
  obtain ⟨b, hrun, -, -, hfalls⟩ :=
    exists_run (sound_started contracted numOrders numSymbols seed benchStart) hmade
  refine ⟨b, hrun, fun k => ?_⟩
  have hfirst := price_started contracted numSymbols seed benchStart k
  have hk := hfalls k
  omega

/-- The first order of a benchmark with two symbols, from the generator's first state. -/
theorem prices_leave_the_grid_first :
    ∃ b, Transition.run (iteration (setup true 10 2)) (started true 2 123456789 0)
        [⟨0, true, 0⟩] = some b ∧ b.price 0 % 10000 = 1 := by
  obtain ⟨b, hrun, hprice⟩ :=
    prices_leave_the_grid true 10 2 123456789 0 [⟨0, true, 0⟩] (by decide)
  have hfalls : falls (setup true 10 2) 0 (started true 2 123456789 0) [⟨0, true, 0⟩] = 1 := by
    decide +kernel
  refine ⟨b, hrun, ?_⟩
  rw [hprice, hfalls]
  rfl

end Benchmark
