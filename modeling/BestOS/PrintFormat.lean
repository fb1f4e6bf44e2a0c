/-
BestOS/PrintFormat.lean

What a format stands for.

`Print` asks when a string is printed as it is.  Here the format is any: `Renders m va fmt
k out` reads it piece by piece, with the arguments from number `k` on, and says what ought
to come out; it mentions neither `fmt_str` nor where the format stands.  A number is
printed as its numeral, which `string_convert` builds from the last digit to the first
(`stringConvert_eq`), after it has been cut to 32 bits, and so without a sign.

`fmt_str` prints that and nothing else, and takes one argument for each conversion that has
one (`fmt_str_renders`); a call of `log` prints the place of the call, what the format stands
for, and a newline (`log_prints`).  A format
that ends with a lone `%` renders nothing; what happens there is in `Print`.
-/
import BestOS.Print
import Mathlib.Data.Nat.Digits.Defs

namespace BestOS

open AccessLog ByteMemory Fuel

/-! ### Numerals -/

/-- The numeral of `n`, the most significant digit first. -/
def numeral (base n : Nat) : List (BitVec 8) :=
  if n = 0 then [representation 0] else ((Nat.digits base n).map representation).reverse

/-- Without its last digit, the numeral of `n` is that of `n / base`. -/
theorem numeral_snoc {base n : Nat} (hb : 1 < base) (hn : n / base ≠ 0) :
    numeral base n = numeral base (n / base) ++ [representation (n % base)] := by
  have h0 : n ≠ 0 := fun h => hn (by rw [h, Nat.zero_div])
  rw [numeral, numeral, if_neg h0, if_neg hn, Nat.digits_def' hb (Nat.pos_of_ne_zero h0),
    List.map_cons, List.reverse_cons]

theorem numeral_digit {base n : Nat} (hn : n < base) : numeral base n = [representation n] := by
  by_cases h0 : n = 0
  · rw [numeral, if_pos h0, h0]
  · rw [numeral, if_neg h0, Nat.digits_of_lt base n h0 hn]
    rfl

/-- The loop puts the digits in front, as long as there is room for them. -/
theorem convertLoop_eq {base : Nat} (hb : 1 < base) {fuel num : Nat} (hfuel : num < base ^ fuel)
    (ptr : List (BitVec 8)) (h0 : 0 < fuel) :
    convertLoop base fuel num ptr = numeral base num ++ ptr := by
  induction fuel generalizing num ptr with
  | zero => exact absurd h0 (Nat.lt_irrefl 0)
  | succ fuel ih =>
    rw [convertLoop]
    by_cases hlast : num / base = 0
    · have hlt : num < base := (Nat.div_eq_zero_iff_lt (Nat.zero_lt_of_lt hb)).mp hlast
      rw [if_neg (not_not_intro hlast), numeral_digit hlt, Nat.mod_eq_of_lt hlt]
      rfl
    · have hless : num / base < base ^ fuel := by
        rw [Nat.pow_succ] at hfuel
        exact (Nat.div_lt_iff_lt_mul (Nat.zero_lt_of_lt hb)).mpr hfuel
      have hpos : 0 < fuel := by
        rcases Nat.eq_zero_or_pos fuel with rfl | hpos
        · exact absurd (Nat.lt_one_iff.mp (by simpa using hless)) hlast
        · exact hpos
      rw [if_pos hlast, ih hless _ hpos, numeral_snoc hb hlast, List.append_assoc]
      rfl

/-- `string_convert` makes the numeral of the low 32 bits; the buffer is large enough. -/
theorem stringConvert_eq {base : Nat} (hb : 1 < base) (num : Nat) :
    stringConvert num base = numeral base (num % 2 ^ 32) ++ [0] := by
  have hroom : num % 2 ^ 32 < base ^ 49 := by
    have h32 : num % 2 ^ 32 < 2 ^ 32 := Nat.mod_lt _ (by decide)
    have hpow : 2 ^ 49 ≤ base ^ 49 := Nat.pow_le_pow_left hb 49
    omega
  exact convertLoop_eq hb hroom [0] (by decide)

theorem numeral_nul_not_mem {base : Nat} (hb : 1 < base) (h16 : base ≤ 16) (n : Nat) :
    0 ∉ numeral base n := by
  have hdigit : ∀ d < 16, representation d ≠ 0 := by decide
  unfold numeral
  split
  · rw [List.mem_singleton]
    exact Ne.symm (hdigit 0 (by decide))
  · rw [List.mem_reverse, List.mem_map]
    rintro ⟨d, hd, hzero⟩
    exact hdigit d (Nat.lt_of_lt_of_le (Nat.digits_lt_base hb hd) h16) hzero

/-! ### Formats -/

/-- A `char` as a string; NUL is the empty one. -/
def charText (c : BitVec 8) : List (BitVec 8) := if c = 0 then [] else [c]

/-- The format `fmt` stands for `out`, with the arguments from number `k` on. -/
inductive Renders (m : Mem) (va : Nat → Nat) : List (BitVec 8) → Nat → List (BitVec 8) → Prop
  | nil {k} : Renders m va [] k []
  | byte {b fmt k out} (hb : b ≠ 37) (h : Renders m va fmt k out) :
      Renders m va (b :: fmt) k (b :: out)
  | c {fmt k out} (h : Renders m va fmt (k + 1) out) :
      Renders m va (37 :: 99 :: fmt) k (charText (BitVec.ofNat 8 (va k)) ++ out)
  | s {fmt k out t} (ht : StringAt m (va k) t) (h : Renders m va fmt (k + 1) out) :
      Renders m va (37 :: 115 :: fmt) k (t ++ out)
  | d {fmt k out} (h : Renders m va fmt (k + 1) out) :
      Renders m va (37 :: 100 :: fmt) k (numeral 10 (va k % 2 ^ 32) ++ out)
  | x {fmt k out} (h : Renders m va fmt (k + 1) out) :
      Renders m va (37 :: 120 :: fmt) k (numeral 16 (va k % 2 ^ 32) ++ out)
  /-- No `case` of the `switch`. -/
  | none {b fmt k out} (hb : b ≠ 99 ∧ b ≠ 115 ∧ b ≠ 100 ∧ b ≠ 120) (h : Renders m va fmt k out) :
      Renders m va (37 :: b :: fmt) k out

variable {m : Mem} {va : Nat → Nat} {a k : Nat} {fmt out t : List (BitVec 8)}

/-- A part without conversions stands for itself. -/
theorem Renders.text {s : List (BitVec 8)} (hs : 37 ∉ s) (h : Renders m va fmt k out) :
    Renders m va (s ++ fmt) k (s ++ out) := by
  induction s with
  | nil => exact h
  | cons b s ih =>
    rw [List.mem_cons, not_or] at hs
    exact .byte (Ne.symm hs.1) (ih hs.2)

/-! ### What `fmt_str` prints -/

theorem Prints.thenPure {x : Traced PrintEvent Unit} (h : Prints x out ()) (k : Nat) :
    Prints (do x; pure k) out k := by
  have hrun : Prints (do x; pure k) (out ++ []) k := h.bind (prints_pure k)
  rwa [List.append_nil] at hrun

theorem writes_c (h : BytesAt m a [37, 99]) (hrest : Writes m va (a + 2) (k + 1) out) :
    Writes m va a k (charText (BitVec.ofNat 8 (va k)) ++ out) := by
  refine writes_conversion h.1 (Enough.of_forall fun fuel => ?_) hrest
  rw [h.2.1, fmtConversion, if_pos rfl]
  have hone : Prints (printBuffer [BitVec.ofNat 8 (va k), 0])
      (charText (BitVec.ofNat 8 (va k))) () := by
    unfold charText
    split
    · next hz =>
      rw [hz]
      exact prints_buffer [] List.not_mem_nil [0]
    · next hz => exact prints_buffer [_] (by simpa using Ne.symm hz) []
  exact (prints_silent rfl).bind (hone.thenPure (k + 1))

theorem writes_x {t : List (BitVec 8)} (h : BytesAt m a [37, 120])
    (ht : stringConvert (va k) 16 = t ++ [0]) (hz : 0 ∉ t)
    (hrest : Writes m va (a + 2) (k + 1) out) : Writes m va a k (t ++ out) := by
  refine writes_conversion h.1 (Enough.of_forall fun fuel => ?_) hrest
  rw [h.2.1, fmtConversion, if_neg (by decide), if_neg (by decide), if_neg (by decide),
    if_pos rfl, ht]
  exact (prints_silent rfl).bind ((prints_buffer t hz []).thenPure (k + 1))

/-- A conversion that is none takes no argument. -/
theorem writes_none {b : BitVec 8} (h : BytesAt m a [37, b])
    (hb : b ≠ 99 ∧ b ≠ 115 ∧ b ≠ 100 ∧ b ≠ 120) (hrest : Writes m va (a + 2) k out) :
    Writes m va a k out := by
  refine hrest.step fun fuel hfuel => ?_
  rw [fmtStr_percent h.1, h.2.1, fmtConversion, if_neg hb.1, if_neg hb.2.1, if_neg hb.2.2.1,
    if_neg hb.2.2.2]
  exact (prints_silent rfl).bind ((prints_silent rfl).bind ((prints_pure k).bind hfuel))

/-- A conversion at the start of a string. -/
theorem conversion_at {b : BitVec 8} (h : StringAt m a (37 :: b :: fmt)) :
    BytesAt m a [37, b] ∧ StringAt m (a + 2) fmt :=
  ⟨⟨h.1.2, h.2.1.2, trivial⟩, h.2.2⟩

theorem Renders.writes (h : Renders m va fmt k out) :
    ∀ {a}, StringAt m a fmt → Writes m va a k out := by
  induction h with
  | nil => exact fun hs => writes_nil hs
  | byte hb _ ih => exact fun hs => writes_char hs.1.2 hs.1.1 hb (ih hs.2)
  | c _ ih =>
    intro a hs
    exact writes_c (conversion_at hs).1 (ih (conversion_at hs).2)
  | s ht _ ih =>
    intro a hs
    exact writes_s (conversion_at hs).1 ht (ih (conversion_at hs).2)
  | d _ ih =>
    intro a hs
    exact writes_d (conversion_at hs).1 (stringConvert_eq (by decide) _)
      (numeral_nul_not_mem (by decide) (by decide) _) (ih (conversion_at hs).2)
  | x _ ih =>
    intro a hs
    exact writes_x (conversion_at hs).1 (stringConvert_eq (by decide) _)
      (numeral_nul_not_mem (by decide) (by decide) _) (ih (conversion_at hs).2)
  | none hb _ ih =>
    intro a hs
    exact writes_none (conversion_at hs).1 hb (ih (conversion_at hs).2)

theorem Writes.unique {out' : List (BitVec 8)} (h : Writes m va a k out)
    (h' : Writes m va a k out') : out = out' := by
  obtain ⟨fuel, hout, hout'⟩ := (Enough.and h h').exists
  exact hout.output.symm.trans hout'.output

/-! ### The arguments it takes -/

/-- The number of the argument taken. -/
def argOf : PrintEvent → Option Nat
  | .vaArg k => some k
  | _ => none

/-- The arguments taken, in order. -/
def taken {α : Type} (x : Traced PrintEvent α) : List Nat := seen argOf x

/-- A conversion with an argument. -/
def TakesArg (b : BitVec 8) : Prop := b = 99 ∨ b = 115 ∨ b = 100 ∨ b = 120

instance (b : BitVec 8) : Decidable (TakesArg b) := inferInstanceAs (Decidable (_ ∨ _ ∨ _ ∨ _))

/-- The conversions of a format that have an argument. -/
def conversions : List (BitVec 8) → Nat
  | [] => 0
  | [_] => 0
  | b :: c :: fmt =>
    if b = 37 then (if TakesArg c then 1 else 0) + conversions fmt else conversions (c :: fmt)

theorem printBuffer_result (cs : List (BitVec 8)) : (printBuffer cs).result = some () := by
  induction cs with
  | nil => rfl
  | cons c cs ih =>
    rw [printBuffer]
    split
    · rfl
    · simp [ih]

theorem taken_printBuffer (cs : List (BitVec 8)) : taken (printBuffer cs) = [] := by
  induction cs with
  | nil => rfl
  | cons c cs ih =>
    rw [printBuffer]
    split
    · rfl
    · unfold taken at ih ⊢
      simp [ih, argOf]

theorem taken_comWriteString (m : Mem) (fuel str : Nat) : taken (comWriteString m fuel str) = [] := by
  induction fuel generalizing str with
  | zero => rfl
  | succ fuel ih =>
    rw [comWriteString]
    split
    · rfl
    · unfold taken at ih ⊢
      simp [ih, argOf]

theorem taken_conversion (m : Mem) (va : Nat → Nat) (fuel : Nat) (b : BitVec 8) (k : Nat) :
    taken (fmtConversion m va fuel b k) = if TakesArg b then [k] else [] := by
  have hbuffer : ∀ cs, seen argOf (printBuffer cs) = [] := taken_printBuffer
  have hstring : ∀ str, seen argOf (comWriteString m fuel str) = [] := taken_comWriteString m fuel
  have hresult : ∀ x : Traced PrintEvent Unit,
      (x.result.elim [] fun _ => []) = ([] : List Nat) := by
    intro x
    cases x.result <;> rfl
  have hargs : (if TakesArg b then [k] else []) =
      if b = 99 ∨ b = 115 ∨ b = 100 ∨ b = 120 then [k] else [] := rfl
  rw [hargs]
  unfold taken fmtConversion
  by_cases hc : b = 99
  · simp [hc, argOf, hbuffer, hresult]
  by_cases hs : b = 115
  · simp [hs, argOf, hstring, hresult]
  by_cases hd : b = 100
  · simp [hd, argOf, hbuffer, hresult]
  by_cases hx : b = 120
  · simp [hx, argOf, hbuffer, hresult]
  · have hnone : ¬ (b = 99 ∨ b = 115 ∨ b = 100 ∨ b = 120) :=
      not_or.mpr ⟨hc, not_or.mpr ⟨hs, not_or.mpr ⟨hd, hx⟩⟩⟩
    rw [if_neg hc, if_neg hs, if_neg hd, if_neg hx, if_neg hnone]
    rfl

/-- The arguments that `fmt_str` takes, of the format at `a`. -/
def Takes (m : Mem) (va : Nat → Nat) (a k : Nat) (l : List Nat) : Prop :=
  Enough fun fuel => taken (fmtStr m va fuel a k) = l

theorem takes_conversion {b : BitVec 8} {k' : Nat} {l : List Nat} (h : BytesAt m a [37, b])
    (hres : Enough fun fuel => (fmtConversion m va fuel b k).result = some k')
    (hrest : Takes m va (a + 2) k' l) :
    Takes m va a k ((if TakesArg b then [k] else []) ++ l) := by
  refine (hres.and hrest).step fun fuel hfuel => ?_
  rw [fmtStr_percent h.1, h.2.1, ← taken_conversion m va fuel b k, ← hfuel.2]
  unfold taken
  simp [argOf, hfuel.1]

theorem takes_char {b : BitVec 8} {l : List Nat} (h : m a = b) (hz : b ≠ 0) (hb : b ≠ 37)
    (hrest : Takes m va (a + 1) k l) : Takes m va a k l := by
  refine hrest.step fun fuel hfuel => ?_
  have hbuffer : ∀ cs, seen argOf (printBuffer cs) = [] := taken_printBuffer
  rw [fmtStr, h, if_neg hz, if_neg hb, ← hfuel]
  unfold taken
  simp [argOf, hbuffer, printBuffer_result]

theorem conversions_byte {b : BitVec 8} (hb : b ≠ 37) (fmt : List (BitVec 8)) :
    conversions (b :: fmt) = conversions fmt := by
  cases fmt with
  | nil => rfl
  | cons c fmt => rw [conversions, if_neg hb]

theorem conversions_arg {b : BitVec 8} (hb : TakesArg b) (fmt : List (BitVec 8)) :
    conversions (37 :: b :: fmt) = conversions fmt + 1 := by
  rw [conversions, if_pos rfl, if_pos hb, Nat.add_comm]

/-- A conversion with an argument, at the start of a format. -/
theorem takes_arg {b : BitVec 8} (hb : TakesArg b) (hs : StringAt m a (37 :: b :: fmt))
    (hres : Enough fun fuel => (fmtConversion m va fuel b k).result = some (k + 1))
    (hrest : Takes m va (a + 2) (k + 1) (List.range' (k + 1) (conversions fmt))) :
    Takes m va a k (List.range' k (conversions (37 :: b :: fmt))) := by
  have htakes := takes_conversion (conversion_at hs).1 hres hrest
  rw [if_pos hb, List.singleton_append] at htakes
  rwa [conversions_arg hb, List.range'_succ]

/-- One for each conversion that has an argument, beginning with number `k`. -/
theorem Renders.takes (h : Renders m va fmt k out) :
    ∀ {a}, StringAt m a fmt → Takes m va a k (List.range' k (conversions fmt)) := by
  -- what a conversion that prints from a buffer returns
  have hbuffer : ∀ b, b = 99 ∨ b = 100 ∨ b = 120 → ∀ k,
      Enough fun fuel => (fmtConversion m va fuel b k).result = some (k + 1) := by
    rintro b (rfl | rfl | rfl) k <;>
      exact Enough.of_forall fun fuel => by simp [fmtConversion, printBuffer_result]
  induction h with
  | nil =>
    intro a hs
    refine Enough.now fun fuel => ?_
    rw [fmtStr, if_pos (show m a = 0 from hs)]
    rfl
  | byte hb _ ih =>
    intro a hs
    rw [conversions_byte hb]
    exact takes_char hs.1.2 hs.1.1 hb (ih hs.2)
  | c _ ih =>
    exact fun hs => takes_arg (.inl rfl) hs (hbuffer 99 (.inl rfl) _) (ih (conversion_at hs).2)
  | s ht _ ih =>
    intro a hs
    refine takes_arg (.inr (.inl rfl)) hs ((prints_string ht).mono fun fuel hstring => ?_)
      (ih (conversion_at hs).2)
    simp [fmtConversion, hstring.result]
  | d _ ih =>
    exact fun hs => takes_arg (.inr (.inr (.inl rfl))) hs (hbuffer 100 (.inr (.inl rfl)) _)
      (ih (conversion_at hs).2)
  | x _ ih =>
    exact fun hs => takes_arg (.inr (.inr (.inr rfl))) hs (hbuffer 120 (.inr (.inr rfl)) _)
      (ih (conversion_at hs).2)
  | @none b fmt k out hb _ ih =>
    intro a hs
    have hnone : ¬ TakesArg b := not_or.mpr ⟨hb.1, not_or.mpr ⟨hb.2.1, not_or.mpr hb.2.2⟩⟩
    have hres : Enough fun fuel => (fmtConversion m va fuel b k).result = some k := by
      refine .of_forall fun fuel => ?_
      rw [fmtConversion, if_neg hb.1, if_neg hb.2.1, if_neg hb.2.2.1, if_neg hb.2.2.2]
      rfl
    have htakes := takes_conversion (conversion_at hs).1 hres (ih (conversion_at hs).2)
    rw [if_neg hnone, List.nil_append] at htakes
    rwa [conversions, if_pos rfl, if_neg hnone, Nat.zero_add]

/-- **What `fmt_str` prints**: it returns, and what it has printed is what the format
stands for; and it has taken an argument for each conversion that has one. -/
theorem fmt_str_renders (hs : StringAt m a fmt) (h : Renders m va fmt k out) :
    (∀ out', Writes m va a k out' ↔ out' = out) ∧
      Takes m va a k (List.range' k (conversions fmt)) := by
  refine ⟨fun out' => ⟨fun h' => h'.unique (h.writes hs), ?_⟩, h.takes hs⟩
  rintro rfl
  exact h.writes hs

/-- A memory with the format `fd %d`. -/
def fdMemory : Mem := logMemory ['f', 'd', ' ', '%', 'd']

/-- The descriptor is -1, and is printed without a sign. -/
theorem fmt_str_renders_fd :
    Writes fdMemory (fun _ => 2 ^ 64 - 1) 0x400000 0
        (ascii ['f', 'd', ' ', '4', '2', '9', '4', '9', '6', '7', '2', '9', '5']) ∧
      Takes fdMemory (fun _ => 2 ^ 64 - 1) 0x400000 0 [0] := by
  have hnumeral : numeral 10 ((2 ^ 64 - 1) % 2 ^ 32) =
      ascii ['4', '2', '9', '4', '9', '6', '7', '2', '9', '5'] := by decide +kernel
  have hrenders : Renders fdMemory (fun _ => 2 ^ 64 - 1) (ascii ['f', 'd', ' ', '%', 'd']) 0
      (ascii ['f', 'd', ' '] ++ (numeral 10 ((2 ^ 64 - 1) % 2 ^ 32) ++ [])) :=
    .text (show 37 ∉ ascii ['f', 'd', ' '] by decide) (.d .nil)
  rw [hnumeral] at hrenders
  obtain ⟨hwrites, htakes⟩ := fmt_str_renders (a := 0x400000) (by decide +kernel) hrenders
  exact ⟨(hwrites _).mpr rfl, htakes⟩

/-! ### The log -/

/-- A call of the macro `log`: the format of `_log`, and the file, the line and the
function that the macro adds. -/
structure LogCall (m : Mem) where
  format : Nat
  file : Nat
  line : Nat
  function : Nat
  fileName : List (BitVec 8)
  functionName : List (BitVec 8)
  format_at : StringAt m format logFormat
  file_at : StringAt m file fileName
  function_at : StringAt m function functionName

/-- The arguments of the `printf` in `_log`. -/
def LogCall.args (call : LogCall m) : Nat → Nat
  | 0 => call.file
  | 1 => call.line
  | _ => call.function

/-- `_log`, called with the format at `fmt` and the arguments `va`. -/
protected def log (call : LogCall m) (va : Nat → Nat) (fuel fmt : Nat) : Traced PrintEvent Unit := do
  fmtStr m call.args fuel call.format 0
  logBody m va fuel fmt

/-- Where the call is. -/
def LogCall.place (call : LogCall m) : List (BitVec 8) :=
  ascii ['\x1b', '[', '1', 'm'] ++ (call.fileName ++ (ascii [':'] ++
    (numeral 10 (call.line % 2 ^ 32) ++ (ascii [' ', '\x1b', '[', '1', ';', '3', '5', 'm'] ++
      (call.functionName ++ (ascii [' ', '\x1b', '[', '0', 'm'] ++ []))))))

theorem LogCall.renders_place (call : LogCall m) : Renders m call.args logFormat 0 call.place :=
  .text (show 37 ∉ ascii ['\x1b', '[', '1', 'm'] by decide) (.s call.file_at
    (.text (show 37 ∉ ascii [':'] by decide) (.d
      (.text (show 37 ∉ ascii [' ', '\x1b', '[', '1', ';', '3', '5', 'm'] by decide)
        (.s call.function_at (.text (show 37 ∉ ascii [' ', '\x1b', '[', '0', 'm'] by decide) .nil))))))

/-- **A line of the log.**  A call of `log` returns, and it has printed the place of the
call, what its format stands for, and a newline. -/
theorem log_prints (call : LogCall m) (hs : StringAt m a fmt) (h : Renders m va fmt 0 out) :
    Enough fun fuel => Prints (BestOS.log call va fuel a) (call.place ++ (out ++ [10])) () := by
  refine (Enough.and (call.renders_place.writes call.format_at) (h.writes hs)).mono
    fun fuel ⟨hplace, hbody⟩ => ?_
  exact hplace.bind (hbody.bind (prints_buffer [10] (by decide) []))

def fdLogCall : LogCall fdMemory where
  format := 0x1000
  file := 0x1100
  line := 48
  function := 0x1200
  fileName := logFile
  functionName := logFunction
  format_at := by decide +kernel
  file_at := by decide +kernel
  function_at := by decide +kernel

theorem log_prints_fd :
    Enough fun fuel => Prints (BestOS.log fdLogCall (fun _ => 3) fuel 0x400000)
      (fdLogCall.place ++ (ascii ['f', 'd', ' '] ++ (numeral 10 3 ++ []) ++ [10])) () :=
  log_prints fdLogCall (show StringAt fdMemory 0x400000 (ascii ['f', 'd', ' ', '%', 'd']) by
    decide +kernel) (.text (show 37 ∉ ascii ['f', 'd', ' '] by decide) (.d .nil))

end BestOS
