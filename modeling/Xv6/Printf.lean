import Mathlib.Tactic

/-!
# The two formatters

`cprintf` of `console.c`, which looks one character ahead, and `printf` of `printf.c`, which keeps a
state, on the characters of a format before its NUL. A result is what is printed with the arguments
left; `none` is a missing argument or a store beyond `buf` in `printint`. Memory is the text of the
string at each address.
-/
namespace Xv6.Printf

/-! ## Numbers -/

/-- The `do ... while` loop of `printint` with `room` places left in `buf`. -/
def fill (digits : ℕ → Char) (base : ℕ) : ℕ → ℕ → List Char → Option (List Char)
  | 0,_,_ => none
  | room+1,x,buf =>
    if x/base = 0 then some (buf++[digits (x%base)])
    else fill digits base room (x/base) (buf++[digits (x%base)])

def signed (w : UInt32) : ℤ := if w.toNat < 2^31 then w.toNat else w.toNat-2^32

/-- `printint(xx, base, sign)` of both files; `-xx` is taken in a word. -/
def printint (digits : ℕ → Char) (xx : UInt32) (base : ℕ) (sign : Bool) : Option (List Char) := do
  let neg : Bool := sign && signed xx < 0
  let x := if neg then (-xx).toNat else xx.toNat
  let buf ← fill digits base 16 x []
  if neg then
    if buf.length < 16 then some (buf++['-']).reverse else none
  else some buf.reverse

def lower (d : ℕ) : Char := "0123456789abcdef".toList.getD d '0'

def upper (d : ℕ) : Char := "0123456789ABCDEF".toList.getD d '0'

/-! ## Formats -/

abbrev Result := Option (List Char×List UInt32)

def put (text : List Char) (r : Result) : Result := r.map fun (out,args) => (text++out,args)

def arg (text : UInt32 → Option (List Char)) (rest : List UInt32 → Result) : List UInt32 → Result
  | [] => none
  | w::args => (text w).bind fun t => put t (rest args)

def string (mem : UInt32 → List Char) (w : UInt32) : Option (List Char) :=
  some (if w = 0 then "(null)".toList else mem w)

def cprintf (mem : UInt32 → List Char) : List Char → List UInt32 → Result
  | [],args => some ([],args)
  | [c],args => some (if c = '%' then [] else [c],args)
  | c::d::fmt,args =>
    if c ≠ '%' then put [c] (cprintf mem (d::fmt) args)
    else if d = 'd' then arg (printint lower · 10 true) (cprintf mem fmt) args
    else if d = 'x' ∨ d = 'p' then arg (printint lower · 16 false) (cprintf mem fmt) args
    else if d = 's' then arg (string mem) (cprintf mem fmt) args
    else if d = '%' then put ['%'] (cprintf mem fmt args)
    else put ['%',d] (cprintf mem fmt args)

/-- The loop of `printf`, in the state `'%'` or not. -/
def printfLoop (mem : UInt32 → List Char) : Bool → List Char → List UInt32 → Result
  | _,[],args => some ([],args)
  | false,c::fmt,args =>
    if c = '%' then printfLoop mem true fmt args else put [c] (printfLoop mem false fmt args)
  | true,c::fmt,args =>
    if c = 'd' then arg (printint upper · 10 true) (printfLoop mem false fmt) args
    else if c = 'x' ∨ c = 'p' then arg (printint upper · 16 false) (printfLoop mem false fmt) args
    else if c = 's' then arg (string mem) (printfLoop mem false fmt) args
    else if c = 'c' then
      arg (fun w => some [Char.ofNat (w.toNat%256)]) (printfLoop mem false fmt) args
    else if c = '%' then put [c] (printfLoop mem false fmt args)
    else put ['%',c] (printfLoop mem false fmt args)

def printf (mem : UInt32 → List Char) : List Char → List UInt32 → Result := printfLoop mem false

/-! ## What a format means -/

/-- A character that both print alike, or a digit. -/
inductive Piece where
  | char (c : Char)
  | digit (d : ℕ)

def Piece.show (digits : ℕ → Char) : Piece → Char
  | char c => c
  | digit d => digits d

def canonical (base n : ℕ) : List Piece :=
  (if n = 0 then [0] else (Nat.digits base n).reverse).map .digit

def decimal (w : UInt32) : List Piece :=
  if signed w < 0 then .char '-' :: canonical 10 (signed w).natAbs
  else canonical 10 (signed w).natAbs

inductive Item where
  | text (c : Char)
  | int
  | hex
  | str

/-- The items of a format; a `%` at its end stands for nothing. -/
def items : List Char → List Item
  | [] => []
  | [c] => if c = '%' then [] else [.text c]
  | c::d::fmt =>
    if c ≠ '%' then .text c::items (d::fmt)
    else if d = 'd' then .int::items fmt
    else if d = 'x' ∨ d = 'p' then .hex::items fmt
    else if d = 's' then .str::items fmt
    else if d = '%' then .text '%' :: items fmt
    else .text '%' :: .text d::items fmt

def needed : List Item → ℕ
  | [] => 0
  | .text _::is => needed is
  | _::is => needed is+1

def pieces (mem : UInt32 → List Char) : List Item → List UInt32 → List Piece
  | [],_ => []
  | .text c::is,args => .char c::pieces mem is args
  | .int::is,args => decimal (args.headD 0)++pieces mem is args.tail
  | .hex::is,args => canonical 16 (args.headD 0).toNat++pieces mem is args.tail
  | .str::is,args =>
    (if args.headD 0 = 0 then "(null)".toList else mem (args.headD 0)).map .char++
      pieces mem is args.tail

/-! ## Agreement -/

theorem fill_eq (digits : ℕ → Char) {base : ℕ} (hb : 1 < base) {room x : ℕ} (buf : List Char)
    (hx : x < base^room) (hr : 0 < room) :
    fill digits base room x buf = some (buf++(if x = 0 then [0] else Nat.digits base x).map digits) := by
  induction room generalizing x buf with
  | zero => omega
  | succ room ih =>
    rw [fill]
    by_cases hlt : x/base = 0
    · have hxb : x < base := (Nat.div_eq_zero_iff_lt (by omega)).mp hlt
      rw [if_pos hlt,Nat.mod_eq_of_lt hxb]
      by_cases h0 : x = 0
      · simp [h0]
      · simp [h0,Nat.digits_of_lt base x h0 hxb]
    · have hpos : 0 < x := Nat.pos_of_ne_zero fun h => hlt (by simp [h])
      have hx' : x/base < base^room := Nat.div_lt_of_lt_mul (by rwa [pow_succ'] at hx)
      have hr' : 0 < room := Nat.pos_of_ne_zero fun h => by
        rw [h,pow_zero] at hx'
        exact hlt (Nat.lt_one_iff.mp hx')
      rw [if_neg hlt,ih _ hx' hr',if_neg hlt,if_neg hpos.ne',Nat.digits_def' hb hpos]
      simp

theorem fill_word (digits : ℕ → Char) {b : ℕ} (hb : 10 ≤ b) {x : ℕ} (hx : x < 2^32) :
    ∃ buf, fill digits b 16 x [] = some buf ∧ buf.length < 16 ∧
      buf.reverse = (canonical b x).map (Piece.show digits) := by
  have hpow : x < b^10 := by
    have := Nat.pow_le_pow_left hb 10
    omega
  have hlen : (if x = 0 then [0] else Nat.digits b x).length ≤ 10 := by
    split_ifs
    · decide
    · exact (Nat.digits_length_le_iff (by omega) x).mpr hpow
  refine ⟨_,fill_eq digits (by omega) [] (hpow.trans_le (Nat.pow_le_pow_right (by omega)
    (by decide))) (by decide),?_,?_⟩
  · simp only [List.nil_append,List.length_map]
    omega
  · unfold canonical
    split_ifs <;> simp [Function.comp_def,Piece.show]

theorem printint_decimal (digits : ℕ → Char) (w : UInt32) :
    printint digits w 10 true = some ((decimal w).map (Piece.show digits)) := by
  have hlt := w.toNat_lt
  by_cases hneg : signed w < 0
  · have hx : (-w).toNat = (signed w).natAbs := by
      unfold signed at hneg ⊢
      rw [UInt32.toNat_neg,show UInt32.size = 2^32 from rfl]
      split_ifs at hneg ⊢ <;> omega
    obtain ⟨buf,hbuf,hlen,hrev⟩ := fill_word digits (b := 10) le_rfl (-w).toNat_lt
    rw [hx] at hbuf hrev
    simp [printint,decimal,hneg,hx,hbuf,hlen,hrev,Piece.show]
  · have hx : w.toNat = (signed w).natAbs := by
      unfold signed at hneg ⊢
      split_ifs at hneg ⊢ <;> omega
    obtain ⟨buf,hbuf,hlen,hrev⟩ := fill_word digits (b := 10) le_rfl hlt
    rw [hx] at hbuf hrev
    simp [printint,decimal,hneg,hx,hbuf,hrev]

theorem printint_hex (digits : ℕ → Char) (w : UInt32) :
    printint digits w 16 false = some ((canonical 16 w.toNat).map (Piece.show digits)) := by
  obtain ⟨buf,hbuf,_,hrev⟩ := fill_word digits (b := 16) (by decide) w.toNat_lt
  simp [printint,hbuf,hrev]

section Agreement

variable {mem : UInt32 → List Char} {digits : ℕ → Char} {rest : List UInt32 → Result}
  {args : List UInt32} {is : List Item}

def Prints (mem : UInt32 → List Char) (digits : ℕ → Char) (is : List Item)
    (f : List UInt32 → Result) : Prop :=
  ∀ args, needed is ≤ args.length →
    f args = some ((pieces mem is args).map (Piece.show digits),args.drop (needed is))

theorem Prints.text (h : Prints mem digits is rest) (c : Char) :
    Prints mem digits (.text c::is) fun args => put [c] (rest args) := by
  intro args hlen
  simp only [h args hlen,put,pieces,needed]
  rfl

theorem Prints.arg {text : UInt32 → Option (List Char)} {i : Item} {p : UInt32 → List Piece}
    (h : Prints mem digits is rest) (htext : ∀ w, text w = some ((p w).map (Piece.show digits)))
    (hn : needed (i::is) = needed is+1)
    (hp : ∀ w args, pieces mem (i::is) (w::args) = p w++pieces mem is args) :
    Prints mem digits (i::is) (Printf.arg text rest) := by
  intro args hlen
  rw [hn] at hlen ⊢
  cases args with
  | nil => simp at hlen
  | cons w args =>
    simp [Printf.arg,htext,h args (by simpa using hlen),put,hp]

theorem Prints.int (h : Prints mem digits is rest) :
    Prints mem digits (.int::is) (Printf.arg (printint digits · 10 true) rest) :=
  h.arg (printint_decimal digits) rfl fun _ _ => rfl

theorem Prints.hex (h : Prints mem digits is rest) :
    Prints mem digits (.hex::is) (Printf.arg (printint digits · 16 false) rest) :=
  h.arg (printint_hex digits) rfl fun _ _ => rfl

theorem Prints.str (h : Prints mem digits is rest) :
    Prints mem digits (.str::is) (Printf.arg (string mem) rest) :=
  h.arg (p := fun w => (if w = 0 then "(null)".toList else mem w).map .char)
    (fun w => by simp [string,Function.comp_def,Piece.show]) rfl fun _ _ => rfl

theorem cprintf_prints (fmt : List Char) : Prints mem lower (items fmt) (cprintf mem fmt) := by
  fun_induction items fmt with
  | case1 => exact fun _ _ => rfl
  | case2 => exact fun _ _ => rfl
  | case3 c hc =>
    intro args _
    simp [cprintf,pieces,needed,hc,Piece.show]
  | case4 c d fmt hc ih =>
    intro args hlen
    rw [cprintf,if_pos hc]
    exact ih.text c args hlen
  | case5 c fmt hc ih =>
    intro args hlen
    rw [cprintf,if_neg hc]
    exact ih.int args hlen
  | case6 c d fmt hc hd hx ih =>
    intro args hlen
    rw [cprintf,if_neg hc,if_neg hd,if_pos hx]
    exact ih.hex args hlen
  | case7 c fmt hc hd hx ih =>
    intro args hlen
    rw [cprintf,if_neg hc,if_neg hd,if_neg hx]
    exact ih.str args hlen
  | case8 c fmt hc hd hx hs ih =>
    intro args hlen
    rw [cprintf,if_neg hc,if_neg hd,if_neg hx,if_neg hs]
    exact ih.text '%' args hlen
  | case9 c d fmt hc hd hx hs hp ih =>
    intro args hlen
    rw [cprintf,if_neg hc,if_neg hd,if_neg hx,if_neg hs,if_neg hp]
    simpa [put,Function.comp_def] using (ih.text d).text '%' args hlen

theorem printf_prints {fmt : List Char} (hfmt : fmt.IsChain fun a b => ¬ (a = '%' ∧ b = 'c')) :
    Prints mem upper (items fmt) (printf mem fmt) := by
  unfold printf
  fun_induction items fmt with
  | case1 => exact fun _ _ => rfl
  | case2 => exact fun _ _ => rfl
  | case3 c hc =>
    intro args _
    simp [printfLoop,pieces,needed,hc,Piece.show,put]
  | case4 c d fmt hc ih =>
    intro args hlen
    rw [printfLoop,if_neg hc]
    exact (ih hfmt.tail).text c args hlen
  | case5 c fmt hc ih =>
    intro args hlen
    rw [printfLoop,if_pos (not_not.mp hc),printfLoop]
    exact (ih hfmt.tail.tail).int args hlen
  | case6 c d fmt hc hd hx ih =>
    intro args hlen
    rw [printfLoop,if_pos (not_not.mp hc),printfLoop,if_neg hd,if_pos hx]
    exact (ih hfmt.tail.tail).hex args hlen
  | case7 c fmt hc hd hx ih =>
    intro args hlen
    rw [printfLoop,if_pos (not_not.mp hc),printfLoop,if_neg hd,if_neg hx]
    exact (ih hfmt.tail.tail).str args hlen
  | case8 c fmt hc hd hx hs ih =>
    intro args hlen
    rw [printfLoop,if_pos (not_not.mp hc),printfLoop,if_neg hd,if_neg hx,if_neg hs]
    exact (ih hfmt.tail.tail).text '%' args hlen
  | case9 c d fmt hc hd hx hs hp ih =>
    have hcc : d ≠ 'c' := fun h => (List.isChain_cons_cons.mp hfmt).1 ⟨not_not.mp hc,h⟩
    intro args hlen
    rw [printfLoop,if_pos (not_not.mp hc),printfLoop,if_neg hd,if_neg hx,if_neg hs,if_neg hcc, if_neg hp]
    simpa [put,Function.comp_def] using ((ih hfmt.tail.tail).text d).text '%' args hlen

end Agreement

/-- On a format without `%c` and with enough arguments both formatters print
the same pieces, each with its own digits, and use the same arguments. The
pieces of a number are its canonical digits, and they fit into `buf`. -/
theorem formatters_agree (mem : UInt32 → List Char) (fmt : List Char) (args : List UInt32)
    (hfmt : fmt.IsChain fun a b => ¬ (a = '%' ∧ b = 'c'))
    (hlen : needed (items fmt) ≤ args.length) :
    (let ps := pieces mem (items fmt) args
    let rest := args.drop (needed (items fmt))
    cprintf mem fmt args = some (ps.map (Piece.show lower),rest) ∧
      printf mem fmt args = some (ps.map (Piece.show upper),rest)) ∧
    ∀ digits ∈ [lower,upper], ∀ w,
      printint digits w 10 true = some ((decimal w).map (Piece.show digits)) ∧
      printint digits w 16 false = some ((canonical 16 w.toNat).map (Piece.show digits)) :=
  ⟨⟨cprintf_prints fmt args hlen,printf_prints hfmt args hlen⟩,
    fun digits _ w => ⟨printint_decimal digits w,printint_hex digits w⟩⟩

/-- The least `int`, an unknown letter and a `%` at the end. -/
theorem formatters_agree_min : (let ps := pieces (fun _ => []) (items "%d%q%x%".toList) [2147483648,255]
    cprintf (fun _ => []) "%d%q%x%".toList [2147483648,255] = some (ps.map (Piece.show lower),[]) ∧
    printf (fun _ => []) "%d%q%x%".toList [2147483648,255] = some (ps.map (Piece.show upper),[])) ∧
    ∀ digits ∈ [lower,upper], ∀ w,
      printint digits w 10 true = some ((decimal w).map (Piece.show digits)) ∧
      printint digits w 16 false = some ((canonical 16 w.toNat).map (Piece.show digits)) :=
  formatters_agree (fun _ => []) "%d%q%x%".toList [2147483648,255] (by decide) (by decide)

example : cprintf (fun _ => []) "%d%q%x%".toList [2147483648,255] =
    some ("-2147483648%qff".toList,[]) := by decide

end Xv6.Printf
