import LwMix.MinIni.Files
import LwMix.Base.Strtol

/-!
# The text of a `long` (`minIni.c`)

* `generateDigits`, `strreverse`, `long2strBuffer`: the code. Division and remainder are cut towards
  zero.
* `long2strBuffer_eq`: for every `long` the text is the decimal one, and fits the `char[32]` of
  `ini_putl`.
* `iniGetl_iniPutl`: a `long` that is put is got.
-/

namespace LwMix.MinIni

/-- The loop of `long2str` that generates the digits in reverse order. -/
def generateDigits : ℕ → Int → List UInt8 → Except Fault (List UInt8)
  | 0, _, _ => .error .fuel
  | fuel + 1, value, str =>
    let n := value.tmod 10
    let str := str ++ [UInt8.ofNat (n.natAbs + 0x30)]
    let value := value.tdiv 10
    if value ≠ 0 then generateDigits fuel value str else .ok str

/-- The loop of `strreverse`. -/
def reverseLoop : ℕ → ℕ → ℕ → List UInt8 → List UInt8
  | 0, _, _, str => str
  | fuel + 1, i, j, str =>
    if i < j then
      let t := str.getD i 0
      let str := str.set i (str.getD j 0)
      let str := str.set j t
      reverseLoop fuel (i + 1) (j - 1) str
    else str

/-- `strreverse`. -/
def strreverse (str : List UInt8) : List UInt8 := reverseLoop str.length 0 (str.length - 1) str

/-- `long2str`, into a `char[size]`. -/
def long2strBuffer (size : ℕ) (value : Int) : Except Fault (List UInt8) := do
  let str ← generateDigits (value.natAbs + 1) value []
  let str := if value < 0 then str ++ [0x2D] else str
  if str.length < size then pure (strreverse str) else .error .outOfBounds

/-- `ini_putl`. -/
def iniPutl (signed : Bool) (dist : Int) (below : UInt8) (canWrite : List UInt8 → Bool)
    (sect key : List UInt8) (value : Int) (filename : List UInt8)
    (disk : Disk (List UInt8) UInt8) : Except Fault (PutEnd × List FileOp) := do
  let localBuffer ← long2strBuffer 32 value
  iniPuts signed dist below canWrite sect (some key) (some localBuffer) filename disk

variable {value : Int} {str : List UInt8} {fuel n : ℕ}

/-! ## The loops -/

/-- The digits of a number that is not `0`, the lowest first. -/
theorem digits_step (hn : n ≠ 0) : Nat.digits 10 n = n % 10 :: Nat.digits 10 (n / 10) :=
  Nat.digits_def' (by decide) (by omega)

theorem generateDigits_eq (hf : value.natAbs < fuel) (str : List UInt8) :
    generateDigits fuel value str = .ok (str ++ (numeral 10 value.natAbs).reverse) := by
  induction fuel generalizing value str with
  | zero => omega
  | succ fuel ih =>
    have hdigit : UInt8.ofNat ((value.tmod 10).natAbs + 0x30) = digitChar (value.natAbs % 10) := by
      rw [Int.natAbs_tmod]
      unfold digitChar
      rw [if_pos (by omega), Nat.add_comm]
      rfl
    have hquot : (value.tdiv 10).natAbs = value.natAbs / 10 := by
      rw [Int.natAbs_tdiv]
      rfl
    have hzero : value.tdiv 10 ≠ 0 ↔ value.natAbs / 10 ≠ 0 := by
      rw [← hquot, ne_eq, ne_eq, Int.natAbs_eq_zero]
    simp only [generateDigits, hdigit]
    by_cases hdiv : value.natAbs / 10 = 0
    · rw [if_neg (by rw [hzero]; simpa using hdiv)]
      have hsmall : value.natAbs < 10 := by omega
      unfold numeral
      by_cases hnil : value.natAbs = 0
      · simp [hnil]
      · rw [if_neg hnil, digits_step hnil, hdiv]
        simp
    · rw [if_pos (hzero.mpr hdiv), ih (by omega)]
      have hnil : value.natAbs ≠ 0 := by omega
      unfold numeral
      rw [hquot, if_neg hnil, if_neg hdiv, digits_step hnil]
      simp

theorem set_front (front back : List UInt8) (x y : UInt8) :
    (front ++ x :: back).set front.length y = front ++ y :: back := by
  rw [List.set_append_right _ _ (Nat.le_refl _)]
  simp

theorem getD_front (front back : List UInt8) (x d : UInt8) :
    (front ++ x :: back).getD front.length d = x := by
  simp [List.getD_eq_getElem?_getD]

/-- Two bytes of the text are swapped. -/
theorem swap_outer (front mid back : List UInt8) (x y : UInt8) :
    let str := front ++ x :: (mid ++ y :: back)
    (str.set front.length (str.getD (front.length + mid.length + 1) 0)).set
        (front.length + mid.length + 1) (str.getD front.length 0) =
      front ++ y :: (mid ++ x :: back) := by
  have hlen : ∀ z : UInt8, front.length + mid.length + 1 = (front ++ z :: mid).length := fun z => by
    simp only [List.length_append, List.length_cons]
    omega
  have hsplit : ∀ z w : UInt8, front ++ z :: (mid ++ w :: back) = (front ++ z :: mid) ++ w :: back :=
    fun z w => by simp
  have hy : (front ++ x :: (mid ++ y :: back)).getD (front.length + mid.length + 1) 0 = y := by
    rw [hsplit, hlen x, getD_front]
  simp only
  rw [hy, getD_front, set_front, hsplit, hlen y, set_front, ← hsplit]

/-- The part `mid` of the text, from `i` to `j`, is reversed. -/
theorem reverseLoop_eq (mid : List UInt8) (hf : mid.length ≤ fuel) (front back : List UInt8) :
    reverseLoop fuel front.length (front.length + mid.length - 1) (front ++ (mid ++ back)) =
      front ++ (mid.reverse ++ back) := by
  induction fuel generalizing mid front back with
  | zero =>
    obtain rfl : mid = [] := List.length_eq_zero_iff.mp (by omega)
    rfl
  | succ fuel ih =>
    cases mid with
    | nil =>
      unfold reverseLoop
      rw [if_neg (by simp)]
      rfl
    | cons x mid =>
      rcases List.eq_nil_or_concat mid with rfl | ⟨mid, y, rfl⟩
      · unfold reverseLoop
        rw [if_neg (by simp)]
        rfl
      · have hstr : front ++ (x :: mid.concat y ++ back) = front ++ x :: (mid ++ y :: back) := by
          simp
        have hj : front.length + (x :: mid.concat y).length - 1 = front.length + mid.length + 1 := by
          simp only [List.length_cons, List.length_concat]
          omega
        have hlen : mid.length ≤ fuel := by
          simp only [List.length_cons, List.length_concat] at hf
          omega
        have hrest := ih mid hlen (front ++ [y]) (x :: back)
        rw [hstr, hj]
        unfold reverseLoop
        rw [if_pos (by omega)]
        simp only [swap_outer]
        rw [List.length_append, List.length_singleton] at hrest
        rw [show front.length + mid.length + 1 - 1 = front.length + 1 + mid.length - 1 by omega]
        simpa using hrest

theorem strreverse_eq (str : List UInt8) : strreverse str = str.reverse := by
  have := reverseLoop_eq str (Nat.le_refl str.length) [] []
  simpa [strreverse] using this

/-- **The text of a `long`.** It is the decimal text, and stays in the buffer of `ini_putl`. -/
theorem long2strBuffer_eq (h : longMin true ≤ value ∧ value ≤ longMax true) :
    long2strBuffer 32 value = .ok (long2str value) := by
  have hlen : (numeral 10 value.natAbs).length ≤ 20 := by
    refine numeral_length_le (by decide) (by decide) ?_
    simp only [longMin, longMax, ↓reduceIte] at h
    omega
  unfold long2strBuffer long2str
  rw [generateDigits_eq (Nat.lt_succ_self _)]
  by_cases hneg : value < 0
  · rw [if_pos hneg]
    show (if _ then _ else _) = _
    simp only [hneg, ↓reduceIte, List.nil_append, strreverse_eq]
    rw [if_pos]
    · simp [ascii, pure, Except.pure]
    · simp only [List.length_append, List.length_reverse, List.length_cons, List.length_nil]
      omega
  · rw [if_neg hneg]
    show (if _ then _ else _) = _
    simp only [hneg, ↓reduceIte, List.nil_append, strreverse_eq]
    rw [if_pos]
    · simp [pure, Except.pure]
    · rw [List.length_reverse]
      omega

/-! ## A number that is put -/

variable {signed lp64 : Bool} {dist : Int} {below : UInt8} {canWrite : List UInt8 → Bool}
  {sect key filename : List UInt8} {disk : Disk (List UInt8) UInt8} {c : UInt8}

theorem long_of_range (h : longMin lp64 ≤ value ∧ value ≤ longMax lp64) :
    longMin true ≤ value ∧ value ≤ longMax true := by
  cases lp64 with
  | true => exact h
  | false =>
    simp only [longMin, longMax, Bool.false_eq_true, ↓reduceIte] at h ⊢
    omega

/-- A decimal text has digits and a sign only. -/
theorem mem_long2str (hc : c ∈ long2str value) : c = 0x2D ∨ ∃ d < 10, c = digitChar d := by
  unfold long2str at hc
  rcases List.mem_append.mp hc with hc | hc
  · split at hc
    · exact .inl (by simpa [ascii] using hc)
    · cases hc
  · exact .inr (mem_numeral (by decide) hc)

theorem plain_long2str (signed : Bool) (value : Int) : Plain signed (long2str value) := by
  intro c hc
  rcases mem_long2str hc with rfl | ⟨d, hd, rfl⟩
  · cases signed <;> decide
  · clear hc
    revert d
    cases signed <;> decide

theorem length_long2str_le (h : longMin true ≤ value ∧ value ≤ longMax true) :
    (long2str value).length ≤ 21 := by
  have hlen : (numeral 10 value.natAbs).length ≤ 20 := by
    refine numeral_length_le (by decide) (by decide) ?_
    simp only [longMin, longMax, ↓reduceIte] at h
    omega
  unfold long2str
  split <;> simp [ascii] <;> omega

/-- **A `long` that is put is got**, whatever its value. -/
theorem iniGetl_iniPutl (hs : SectionOk sect) (hk : KeyOk signed key) (hlen : key.length ≤ 487)
    (hn : NameOk filename) (hw : canWrite filename = true)
    (hw' : canWrite (tempname filename) = true) (hfile : ∀ file ∈ disk filename, TextFile file)
    (hspare : ∀ file ∈ disk filename, Spared signed dist file sect key)
    (h : longMin lp64 ≤ value ∧ value ≤ longMax lp64) :
    ∃ ops, iniPutl signed dist below canWrite sect key value filename disk =
        .ok (.returned true, ops) ∧
      ∀ place defValue, place.Apart 64 →
        iniGetl signed lp64 place (disk.run ops filename) sect key defValue = .ok value := by
  have hbytes := length_long2str_le (long_of_range h)
  have hput := putOk_of_plain hs hk (plain_long2str signed value) (by omega)
  obtain ⟨ops, hok, htext, hlookup⟩ := lookup_iniPuts below hput hn hw hw' hfile hspare
  refine ⟨ops, ?_, fun place defValue happ => ?_⟩
  · unfold iniPutl
    rw [long2strBuffer_eq (long_of_range h)]
    exact hok
  · have hne : (long2str value).length ≠ 0 := by
      have := numeral_ne_nil 10 value.natAbs
      simp [long2str, this]
    have hx : ¬ ((long2str value).length ≥ 2 ∧ (long2str value)[1]?.map toUpper = some 0x58) := by
      rintro ⟨-, hx⟩
      obtain ⟨c, hc, hup⟩ := Option.map_eq_some_iff.mp hx
      exact long2str_second value c hc hup
    have hgets : iniGets signed place (disk.run ops filename) sect key [] 64 =
        .ok (long2str value) := by
      rw [happ.iniGets_eq hs.noNul hk.noNul (fun file hf => (htext file hf).noNul), hlookup,
        if_pos ⟨rfl, rfl⟩, Option.getD_some, List.take_of_length_le (by omega)]
    unfold iniGetl
    rw [hgets]
    show (if _ then _ else if _ then _ else _) = _
    rw [if_neg hne, if_neg hx, strtol_long2str h]
    rfl

theorem iniGetl_iniPutl_min : ∃ ops,
    iniPutl true 640 0 allWritable (ascii "server") (ascii "name") (-9223372036854775808)
      (ascii "mix.cfg") sampleDisk = .ok (.returned true, ops) ∧
    iniGetl true true ⟨640, -4096⟩ (sampleDisk.run ops (ascii "mix.cfg")) (ascii "server")
      (ascii "name") 0 = .ok (-9223372036854775808) :=
  Exists.imp (fun _ h => ⟨h.1, h.2 ⟨640, -4096⟩ 0 (by decide)⟩)
    (iniGetl_iniPutl sectionOk_server (keyOk_name true) (by decide) nameOk_sample rfl rfl
      sampleDisk_text sampleDisk_spared (by decide))

end LwMix.MinIni
