/-
BestOS/Print.lean

Does the log print a user's string as it is?

`sys_log` hands the pointer in `rdi` to `log` as the format.  `fmt_str` prints
what is not a `%`, and takes a `%` with the byte behind it for a conversion:
`c`, `s`, `d` and `x` take an argument that nobody passed, every other one
prints nothing, and a `%` at the end takes the NUL, so that the string is left
behind.  A string is printed as it is exactly when it has no `%`
(`log_literal_iff`).

The model keeps what the formatter reads, which arguments it takes and what goes
to the serial port.  `Writes m va fmt k out` is the rule for a format that
prints `out`: one step for each kind of piece, from the back.
-/
import BestOS.AccessLog
import BestOS.Fuel
import BestOS.NulString

namespace BestOS

open AccessLog ByteMemory Fuel

/-! ### The formatter -/

/-- `fmt_str` reads a byte of its format, or takes an argument; `com_putc` sends
a byte. -/
inductive PrintEvent
  | fetch (a : Nat)
  | vaArg (k : Nat)
  | putc (c : BitVec 8)

/-- `com_write_string`, which is all that `print` does. -/
def comWriteString (m : Mem) : Nat → Nat → Traced PrintEvent Unit
  | 0, _ => silent none
  | fuel + 1, str =>
    if m str = 0 then pure ()
    else do
      access (.putc (m str))
      comWriteString m fuel (str + 1)

/-- `print` of a string the caller has built, up to its NUL. -/
def printBuffer : List (BitVec 8) → Traced PrintEvent Unit
  | [] => pure ()
  | c :: cs =>
    if c = 0 then pure ()
    else do
      access (.putc c)
      printBuffer cs

/-- The bytes of a character string. -/
def ascii (s : List Char) : List (BitVec 8) := s.map fun c => BitVec.ofNat 8 c.toNat

/-- `representation[i]`. -/
def representation (i : Nat) : BitVec 8 :=
  (ascii ['0', '1', '2', '3', '4', '5', '6', '7', '8', '9', 'A', 'B', 'C', 'D', 'E', 'F']).getD i 0

/-- The `do … while` of `string_convert`; `ptr` is what stands in the buffer. -/
def convertLoop (base : Nat) : Nat → Nat → List (BitVec 8) → List (BitVec 8)
  | 0, _, ptr => ptr
  | fuel + 1, num, ptr =>
    let ptr := representation (num % base) :: ptr
    let num := num / base
    if num ≠ 0 then convertLoop base fuel num ptr else ptr

/-- `string_convert`, of an `unsigned int`; the buffer has room for 49 digits and
the NUL behind them. -/
def stringConvert (num base : Nat) : List (BitVec 8) := convertLoop base 49 (num % 2 ^ 32) [0]

/-- The `switch` of `fmt_str`: the next argument not taken yet. -/
def fmtConversion (m : Mem) (va : Nat → Nat) (fuel : Nat) (c : BitVec 8) (k : Nat) :
    Traced PrintEvent Nat :=
  if c = 99 then do
    access (.vaArg k)
    printBuffer [BitVec.ofNat 8 (va k), 0]
    pure (k + 1)
  else if c = 115 then do
    access (.vaArg k)
    comWriteString m fuel (va k)
    pure (k + 1)
  else if c = 100 then do
    access (.vaArg k)
    printBuffer (stringConvert (va k) 10)
    pure (k + 1)
  else if c = 120 then do
    access (.vaArg k)
    printBuffer (stringConvert (va k) 16)
    pure (k + 1)
  else pure k

/-- `fmt_str(print, fmt, lst)`; the arguments are `va k`, `va (k + 1)`, … -/
def fmtStr (m : Mem) (va : Nat → Nat) : Nat → Nat → Nat → Traced PrintEvent Unit
  | 0, _, _ => silent none
  | fuel + 1, fmt, k => do
    access (.fetch fmt)
    if m fmt = 0 then pure ()
    else if m fmt = 37 then do
      access (.fetch (fmt + 1))
      let k ← fmtConversion m va fuel (m (fmt + 1)) k
      fmtStr m va fuel (fmt + 2) k
    else do
      printBuffer [m fmt, 0]
      fmtStr m va fuel (fmt + 1) k

/-! ### The log -/

def logFormat : List (BitVec 8) :=
  ascii ['\x1b', '[', '1', 'm', '%', 's', ':', '%', 'd', ' ', '\x1b', '[', '1', ';', '3', '5', 'm',
    '%', 's', ' ', '\x1b', '[', '0', 'm']

def logFile : List (BitVec 8) := ascii ['s', 'y', 's', 'c', 'a', 'l', 'l', 's', '.', 'c']

def logFunction : List (BitVec 8) := ascii ['s', 'y', 's', '_', 'l', 'o', 'g']

def logLine : Nat := 20

/-- Where the strings of the call in `sys_log` stand. -/
structure LogSite (m : Mem) where
  format : Nat
  file : Nat
  function : Nat
  format_at : StringAt m format logFormat
  file_at : StringAt m file logFile
  function_at : StringAt m function logFunction

variable {m : Mem}

/-- The arguments of the `printf` in `_log`. -/
def LogSite.args (site : LogSite m) : Nat → Nat
  | 0 => site.file
  | 1 => logLine
  | _ => site.function

/-- The `printf` in `_log`. -/
def logPrefix (site : LogSite m) (fuel : Nat) : Traced PrintEvent Unit :=
  fmtStr m site.args fuel site.format 0

/-- The rest of `_log`. -/
def logBody (m : Mem) (va : Nat → Nat) (fuel fmt : Nat) : Traced PrintEvent Unit := do
  fmtStr m va fuel fmt 0
  printBuffer [10, 0]

/-- `sys_log`, with `rdi`; `va` is what `va_arg` finds where no argument is. -/
def sysLog (site : LogSite m) (va : Nat → Nat) (fuel rdi : Nat) : Traced PrintEvent Unit := do
  logPrefix site fuel
  logBody m va fuel rdi

/-! ### What is printed -/

/-- The bytes that go out. -/
def putcOf : PrintEvent → Option (BitVec 8)
  | .putc c => some c
  | _ => none

def output {α : Type} (x : Traced PrintEvent α) : List (BitVec 8) := seen putcOf x

/-- `x` prints `out` and returns `r`. -/
structure Prints {α : Type} (x : Traced PrintEvent α) (out : List (BitVec 8)) (r : α) : Prop where
  result : x.result = some r
  output : output x = out

theorem Prints.bind {α β : Type} {x : Traced PrintEvent α} {f : α → Traced PrintEvent β}
    {out out' : List (BitVec 8)} {a : α} {b : β} (h : Prints x out a) (h' : Prints (f a) out' b) :
    Prints (x >>= f) (out ++ out') b where
  result := by rw [result_bind, h.result, Option.bind_some, h'.result]
  output := by
    rw [BestOS.output, seen_bind, h.result]
    exact congrArg₂ _ h.output h'.output

theorem prints_pure {α : Type} (r : α) : Prints (pure r) [] r := ⟨rfl, rfl⟩

/-- What is no byte that goes out. -/
theorem prints_silent {e : PrintEvent} (he : putcOf e = none) : Prints (access e) [] () where
  result := rfl
  output := by rw [output, seen_access, he, Option.toList_none]

theorem prints_putc (c : BitVec 8) : Prints (access (.putc c)) [c] () := ⟨rfl, rfl⟩

theorem prints_buffer (cs : List (BitVec 8)) (h : 0 ∉ cs) (rest : List (BitVec 8)) :
    Prints (printBuffer (cs ++ 0 :: rest)) cs () := by
  induction cs with
  | nil => exact prints_pure ()
  | cons c cs ih =>
    have hc : c ≠ 0 := fun hz => h (hz ▸ List.mem_cons_self)
    rw [List.cons_append, printBuffer, if_neg hc]
    exact (prints_putc c).bind (ih fun hz => h (List.mem_cons_of_mem c hz))

theorem prints_string {a : Nat} {s : List (BitVec 8)} (h : StringAt m a s) :
    Enough fun fuel => Prints (comWriteString m fuel a) s () := by
  induction s generalizing a with
  | nil =>
    refine .now fun fuel => ?_
    rw [comWriteString, if_pos (show m a = 0 from h)]
    exact prints_pure ()
  | cons b s ih =>
    refine (ih h.2).step fun fuel hrest => ?_
    have hb : m a ≠ 0 := h.1.2 ▸ h.1.1
    rw [comWriteString, if_neg hb, h.1.2]
    exact (prints_putc b).bind hrest

/-! ### Rules for formats -/

/-- The format at `fmt` prints `out`, with the arguments from number `k` on. -/
def Writes (m : Mem) (va : Nat → Nat) (fmt k : Nat) (out : List (BitVec 8)) : Prop :=
  Enough fun fuel => Prints (fmtStr m va fuel fmt k) out ()

variable {va : Nat → Nat} {a k : Nat} {out : List (BitVec 8)}

theorem writes_nil (h : m a = 0) : Writes m va a k [] := by
  refine .now fun fuel => ?_
  rw [fmtStr, if_pos h]
  exact (prints_silent rfl).bind (prints_pure ())

theorem writes_char {c : BitVec 8} (h : m a = c) (hz : c ≠ 0) (hc : c ≠ 37)
    (hrest : Writes m va (a + 1) k out) : Writes m va a k (c :: out) := by
  refine hrest.step fun fuel hfuel => ?_
  rw [fmtStr, h, if_neg hz, if_neg hc]
  have hone : Prints (printBuffer [c, 0]) [c] () :=
    prints_buffer [c] (by simpa using Ne.symm hz) []
  exact (prints_silent rfl).bind (hone.bind hfuel)

/-- A part without conversions is printed as it is. -/
theorem writes_text {s : List (BitVec 8)} (hs : BytesAt m a s) (hz : 0 ∉ s) (hc : 37 ∉ s)
    (hrest : Writes m va (a + s.length) k out) : Writes m va a k (s ++ out) := by
  induction s generalizing a with
  | nil => exact hrest
  | cons b s ih =>
    rw [List.mem_cons, not_or] at hz hc
    refine writes_char hs.1 (Ne.symm hz.1) (Ne.symm hc.1) (ih hs.2 hz.2 hc.2 ?_)
    rwa [List.length_cons, Nat.add_comm s.length, ← Nat.add_assoc] at hrest

/-- A conversion that takes argument `k`. -/
theorem writes_conversion {t : List (BitVec 8)} (h : m a = 37)
    (hconv : Enough fun fuel => Prints (fmtConversion m va fuel (m (a + 1)) k) t (k + 1))
    (hrest : Writes m va (a + 2) (k + 1) out) : Writes m va a k (t ++ out) := by
  refine (hconv.and hrest).step fun fuel hfuel => ?_
  rw [fmtStr, h, if_neg (by decide), if_pos rfl]
  exact (prints_silent rfl).bind ((prints_silent rfl).bind (hfuel.1.bind hfuel.2))

theorem writes_s {t : List (BitVec 8)} (h : BytesAt m a [37, 115]) (ht : StringAt m (va k) t)
    (hrest : Writes m va (a + 2) (k + 1) out) : Writes m va a k (t ++ out) := by
  refine writes_conversion h.1 ((prints_string ht).mono fun fuel hfuel => ?_) hrest
  rw [h.2.1, fmtConversion, if_neg (by decide), if_pos rfl]
  exact (prints_silent rfl).bind ((List.append_nil t).symm ▸ hfuel.bind (prints_pure (k + 1)))

theorem writes_d {t : List (BitVec 8)} (h : BytesAt m a [37, 100])
    (ht : stringConvert (va k) 10 = t ++ [0]) (hz : 0 ∉ t)
    (hrest : Writes m va (a + 2) (k + 1) out) : Writes m va a k (t ++ out) := by
  refine writes_conversion h.1 (Enough.of_forall fun fuel => ?_) hrest
  rw [h.2.1, fmtConversion, if_neg (by decide), if_neg (by decide), if_pos rfl, ht]
  have hone : Prints (do printBuffer (t ++ [0]); pure (k + 1)) (t ++ []) (k + 1) :=
    (prints_buffer t hz []).bind (prints_pure (k + 1))
  rw [List.append_nil] at hone
  exact (prints_silent rfl).bind hone

/-! ### The prefix -/

def logPrefixText : List (BitVec 8) :=
  ascii ['\x1b', '[', '1', 'm'] ++ (logFile ++ (ascii [':'] ++ (ascii ['2', '0'] ++
    (ascii [' ', '\x1b', '[', '1', ';', '3', '5', 'm'] ++
      (logFunction ++ (ascii [' ', '\x1b', '[', '0', 'm'] ++ []))))))

/-- The prefix names the file, the line and the function. -/
theorem logPrefix_prints (site : LogSite m) :
    Enough fun fuel => Prints (logPrefix site fuel) logPrefixText () := by
  have hformat : logFormat = ascii ['\x1b', '[', '1', 'm'] ++ ([37, 115] ++ (ascii [':'] ++
      ([37, 100] ++ (ascii [' ', '\x1b', '[', '1', ';', '3', '5', 'm'] ++ ([37, 115] ++
        (ascii [' ', '\x1b', '[', '0', 'm'] ++ [])))))) := rfl
  have h := site.format_at
  rw [hformat] at h
  simp only [stringAt_append] at h
  obtain ⟨⟨z₁, h₁⟩, ⟨-, h₂⟩, ⟨z₃, h₃⟩, ⟨-, h₄⟩, ⟨z₅, h₅⟩, ⟨-, h₆⟩, ⟨z₇, h₇⟩, hnul⟩ := h
  have hline : stringConvert (site.args 1) 10 = ascii ['2', '0'] ++ [0] := by
    show stringConvert logLine 10 = _
    decide
  exact writes_text h₁ z₁ (by decide) (writes_s h₂ site.file_at (writes_text h₃ z₃ (by decide)
    (writes_d h₄ hline (by decide) (writes_text h₅ z₅ (by decide)
      (writes_s h₆ site.function_at (writes_text h₇ z₇ (by decide) (writes_nil hnul)))))))

/-! ### The string of the user -/

/-- What the formatter may do with the string from `lo` to its NUL at `hi`. -/
def Stays (lo hi : Nat) : PrintEvent → Prop
  | .fetch a => lo ≤ a ∧ a ≤ hi
  | .vaArg _ => False
  | .putc _ => True

theorem printBuffer_stays (lo hi : Nat) (cs : List (BitVec 8)) :
    Within (Stays lo hi) (printBuffer cs) := by
  induction cs with
  | nil => exact (within_pure ()).mpr trivial
  | cons c cs ih =>
    rw [printBuffer]
    split
    · exact (within_pure ()).mpr trivial
    · exact (within_access_bind _ _).mpr ⟨trivial, ih⟩

/-- A string without conversions is read once, up to its NUL, and printed. -/
theorem fmtStr_literal {s : List (BitVec 8)} (hs : StringAt m a s) (hc : 37 ∉ s) {lo hi : Nat}
    (hlo : lo ≤ a) (hhi : a + s.length ≤ hi) (va : Nat → Nat) (k : Nat) {fuel : Nat}
    (hfuel : s.length < fuel) :
    Prints (fmtStr m va fuel a k) s () ∧ Within (Stays lo hi) (fmtStr m va fuel a k) := by
  induction s generalizing a fuel with
  | nil =>
    obtain ⟨fuel, rfl⟩ : ∃ n, fuel = n + 1 := ⟨fuel - 1, by simp at hfuel; omega⟩
    rw [fmtStr, if_pos (show m a = 0 from hs)]
    exact ⟨(prints_silent rfl).bind (prints_pure ()),
      (within_access_bind _ _).mpr ⟨⟨hlo, hhi⟩, (within_pure ()).mpr trivial⟩⟩
  | cons b s ih =>
    rw [List.length_cons] at hfuel hhi
    obtain ⟨fuel, rfl⟩ : ∃ n, fuel = n + 1 := ⟨fuel - 1, by omega⟩
    rw [List.mem_cons, not_or] at hc
    obtain ⟨hprints, hstays⟩ :=
      ih hs.2 hc.2 (by omega) (by omega) (show s.length < fuel by omega)
    have hone : Prints (printBuffer [b, 0]) [b] () :=
      prints_buffer [b] (by simpa using Ne.symm hs.1.1) []
    rw [fmtStr, hs.1.2, if_neg hs.1.1, if_neg (Ne.symm hc.1)]
    refine ⟨(prints_silent rfl).bind (hone.bind hprints), (within_access_bind _ _).mpr ⟨?_, ?_⟩⟩
    · exact ⟨hlo, by omega⟩
    · exact within_bind.mpr ⟨printBuffer_stays _ _ _, fun _ _ => hstays⟩

/-- One byte that is no `%`. -/
theorem fmtStr_char {b : BitVec 8} (h : m a = b) (hz : b ≠ 0) (hb : b ≠ 37) (fuel : Nat) :
    fmtStr m va (fuel + 1) a k = (do
      access (.fetch a)
      printBuffer [b, 0]
      fmtStr m va fuel (a + 1) k) := by
  rw [fmtStr, h, if_neg hz, if_neg hb]

/-- A `%` and the byte behind it. -/
theorem fmtStr_percent (h : m a = 37) (fuel : Nat) :
    fmtStr m va (fuel + 1) a k = (do
      access (.fetch a)
      access (.fetch (a + 1))
      let k ← fmtConversion m va fuel (m (a + 1)) k
      fmtStr m va fuel (a + 2) k) := by
  rw [fmtStr, h, if_neg (by decide), if_pos rfl]

/-- A conversion that takes no argument does nothing. -/
theorem fmtConversion_stays {lo hi fuel : Nat} {c : BitVec 8}
    (h : Within (Stays lo hi) (fmtConversion m va fuel c k)) :
    fmtConversion m va fuel c k = pure k := by
  have htakes : ∀ {f : Unit → Traced PrintEvent Nat},
      ¬ Within (Stays lo hi) (access (.vaArg k) >>= f) := fun hw =>
    ((within_access_bind _ _).mp hw).1
  unfold fmtConversion at h ⊢
  split
  · next hc => exact absurd (by rwa [if_pos hc] at h) htakes
  · next hc =>
    rw [if_neg hc] at h
    split
    · next hs => exact absurd (by rwa [if_pos hs] at h) htakes
    · next hs =>
      rw [if_neg hs] at h
      split
      · next hd => exact absurd (by rwa [if_pos hd] at h) htakes
      · next hd =>
        rw [if_neg hd] at h
        split
        · next hx => exact absurd (by rwa [if_pos hx] at h) htakes
        · rfl

/-- A formatter that stays in a string and takes no argument prints no more than
the string, and less if there is a `%` in it. -/
theorem fmtStr_shorter {fuel : Nat} {s : List (BitVec 8)} (hs : StringAt m a s) {lo : Nat}
    (hstays : Within (Stays lo (a + s.length)) (fmtStr m va fuel a k))
    (hreturns : (fmtStr m va fuel a k).result = some ()) :
    (output (fmtStr m va fuel a k)).length ≤ s.length ∧
      (37 ∈ s → (output (fmtStr m va fuel a k)).length < s.length) := by
  induction fuel using Nat.strong_induction_on generalizing a s k with
  | _ fuel ih =>
  cases fuel with
  | zero => cases hreturns
  | succ fuel =>
    cases s with
    | nil =>
      have hnone : output (fmtStr m va (fuel + 1) a k) = [] := by
        rw [fmtStr, if_pos (show m a = 0 from hs)]
        exact ((prints_silent rfl).bind (prints_pure ())).output
      rw [hnone]
      exact ⟨Nat.le_refl 0, fun hc => absurd hc List.not_mem_nil⟩
    | cons b s =>
      obtain ⟨⟨hz, hb⟩, hrest⟩ := hs
      rw [List.length_cons] at *
      by_cases hc : b = 37
      · subst hc
        rw [fmtStr_percent hb] at hstays hreturns ⊢
        rw [within_access_bind, within_access_bind, within_bind] at hstays
        obtain ⟨-, -, hconv, hstays⟩ := hstays
        rw [fmtConversion_stays hconv] at hstays hreturns ⊢
        have hstays := hstays k rfl
        have hout : output (do
            access (.fetch a)
            access (.fetch (a + 1))
            let k ← (pure k : Traced PrintEvent Nat)
            fmtStr m va fuel (a + 2) k) = output (fmtStr m va fuel (a + 2) k) := by
          simp [output, putcOf]
        have hres : (fmtStr m va fuel (a + 2) k).result = some () := by simpa using hreturns
        rw [hout]
        cases s with
        | nil =>
          -- the NUL is taken for a conversion, and the next byte is outside
          cases fuel with
          | zero => cases hres
          | succ fuel =>
            rw [fmtStr, within_access_bind] at hstays
            have hin : a + 2 ≤ a + (0 + 1) := hstays.1.2
            omega
        | cons c s =>
          rw [List.length_cons] at hstays ⊢
          obtain ⟨hle, -⟩ := ih fuel (Nat.lt_succ_self fuel) (a := a + 2) (s := s) hrest.2
            (by rwa [show a + 2 + s.length = a + (s.length + 1 + 1) by omega]) hres
          omega
      · rw [fmtStr_char hb hz hc] at hstays hreturns ⊢
        rw [within_access_bind, within_bind] at hstays
        have hone : Prints (printBuffer [b, 0]) [b] () :=
          prints_buffer [b] (by simpa using Ne.symm hz) []
        have hstays := hstays.2.2 () hone.result
        have hres : (fmtStr m va fuel (a + 1) k).result = some () := by
          rwa [result_bind, result_access, Option.bind_some, result_bind, hone.result,
            Option.bind_some] at hreturns
        have hout : output (do
            access (.fetch a)
            printBuffer [b, 0]
            fmtStr m va fuel (a + 1) k) = b :: output (fmtStr m va fuel (a + 1) k) :=
          ((prints_silent rfl).bind (hone.bind ⟨hres, rfl⟩)).output
        rw [hout, List.length_cons]
        obtain ⟨hle, hlt⟩ := ih fuel (Nat.lt_succ_self fuel) (s := s) hrest
          (by rwa [show a + 1 + s.length = a + (s.length + 1) by omega]) hres
        refine ⟨by omega, fun hmem => ?_⟩
        have := hlt ((List.mem_cons.mp hmem).resolve_left (Ne.symm hc))
        omega

/-! ### Literal logs -/

/-- The log of a string `s` at `p`: behind the prefix comes the string and a
newline, its bytes are read up to the NUL only, and no argument is taken. -/
structure LogsLiterally (site : LogSite m) (va : Nat → Nat) (p : Nat) (s : List (BitVec 8))
    (fuel : Nat) : Prop where
  printed : Prints (sysLog site va fuel p) (logPrefixText ++ (s ++ [10])) ()
  stays : Within (Stays p (p + s.length)) (logBody m va fuel p)

/-- With a `%` in the string, the body is never the string and a newline. -/
theorem logBody_not_literal {p : Nat} {s : List (BitVec 8)} (hs : StringAt m p s) (hc : 37 ∈ s)
    {fuel : Nat} (hstays : Within (Stays p (p + s.length)) (logBody m va fuel p))
    (hreturns : (logBody m va fuel p).result = some ()) :
    output (logBody m va fuel p) ≠ s ++ [10] := by
  have hnewline : Prints (printBuffer [10, 0]) [10] () := prints_buffer [10] (by decide) []
  rw [logBody, within_bind] at hstays
  have hfmt : (fmtStr m va fuel p 0).result = some () := by
    rw [logBody, result_bind] at hreturns
    obtain ⟨_, hr, -⟩ := Option.bind_eq_some_iff.mp hreturns
    exact hr
  have hlt := (fmtStr_shorter hs hstays.1 hfmt).2 hc
  have hout : output (logBody m va fuel p) = output (fmtStr m va fuel p 0) ++ [10] :=
    (Prints.bind ⟨hfmt, rfl⟩ hnewline).output
  intro heq
  have hlen := congrArg List.length (hout.symm.trans heq)
  simp only [List.length_append, List.length_singleton] at hlen
  omega

/-- Nor is the whole log a literal one. -/
theorem not_logsLiterally {site : LogSite m} {va : Nat → Nat} {p : Nat} {s : List (BitVec 8)}
    (hs : StringAt m p s) (hc : 37 ∈ s) :
    ¬ Enough fun fuel => LogsLiterally site va p s fuel := by
  intro h
  obtain ⟨fuel, ⟨hprinted, hstays⟩, hintro⟩ := (h.and (logPrefix_prints site)).exists
  -- what is printed behind the prefix
  have hreturns : (logBody m va fuel p).result = some () := by
    have hr := hprinted.result
    rwa [sysLog, result_bind, hintro.result, Option.bind_some] at hr
  have hsame : logPrefixText ++ output (logBody m va fuel p) = logPrefixText ++ (s ++ [10]) :=
    (hintro.bind ⟨hreturns, rfl⟩).output.symm.trans hprinted.output
  exact logBody_not_literal hs hc hstays hreturns (List.append_cancel_left hsame)

/-- **A user's string is logged as it is** exactly when it has no `%`. -/
theorem log_literal_iff (site : LogSite m) (va : Nat → Nat) {p : Nat} {s : List (BitVec 8)}
    (hs : StringAt m p s) : (Enough fun fuel => LogsLiterally site va p s fuel) ↔ 37 ∉ s := by
  have hnewline : Prints (printBuffer [10, 0]) [10] () := prints_buffer [10] (by decide) []
  constructor
  · exact fun h hc => not_logsLiterally hs hc h
  · intro hc
    have hbody : Enough fun fuel => Prints (logBody m va fuel p) (s ++ [10]) () ∧
        Within (Stays p (p + s.length)) (logBody m va fuel p) := by
      refine ⟨s.length + 1, fun fuel hfuel => ?_⟩
      obtain ⟨hprints, hstays⟩ :=
        fmtStr_literal hs hc (Nat.le_refl p) (Nat.le_refl _) va 0 (Nat.lt_of_succ_le hfuel)
      exact ⟨hprints.bind hnewline, within_bind.mpr ⟨hstays, fun _ _ => printBuffer_stays _ _ _⟩⟩
    exact ((logPrefix_prints site).and hbody).mono fun fuel h => ⟨h.1.bind h.2.1, h.2.2⟩

/-! ### Two strings -/

/-- A memory with the strings of the log, and the string `s` of a user. -/
def logMemory (s : List Char) : Mem :=
  putBytes (putBytes (putBytes (putBytes (fun _ => 0) 0x1000 logFormat) 0x1100 logFile)
    0x1200 logFunction) 0x400000 (ascii s)

def helloSite : LogSite (logMemory ['h', 'e', 'l', 'l', 'o']) where
  format := 0x1000
  file := 0x1100
  function := 0x1200
  format_at := by decide +kernel
  file_at := by decide +kernel
  function_at := by decide +kernel

def percentSite : LogSite (logMemory ['1', '0', '0', '%']) where
  format := 0x1000
  file := 0x1100
  function := 0x1200
  format_at := by decide +kernel
  file_at := by decide +kernel
  function_at := by decide +kernel

theorem log_literal_hello :
    Enough fun fuel =>
      LogsLiterally helloSite (fun _ => 0) 0x400000 (ascii ['h', 'e', 'l', 'l', 'o']) fuel :=
  (log_literal_iff helloSite (fun _ => 0) (by decide +kernel)).mpr (by decide)

/-- **A `%` at the end** takes the NUL with it, and the formatter goes on behind
the string. -/
theorem percent_not_literal :
    ¬ ∀ (m : Mem) (site : LogSite m) (va : Nat → Nat) (p : Nat) (s : List (BitVec 8)),
      StringAt m p s → Enough fun fuel => LogsLiterally site va p s fuel := by
  intro hclaim
  have hs : StringAt (logMemory ['1', '0', '0', '%']) 0x400000 (ascii ['1', '0', '0', '%']) := by
    decide +kernel
  exact not_logsLiterally hs (by decide) (hclaim _ percentSite (fun _ => 0) _ _ hs)

end BestOS
