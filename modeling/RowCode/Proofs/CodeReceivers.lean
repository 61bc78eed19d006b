import RowCode.Lowering.Pass
import RowCode.Proofs.CodeReading

/-!
# Receivers in code

A call or an access is made on what stands right before it, which leaves out the operators and the
casts that its receiver opens with unless the receiver stands in parentheses. An expression with no
such receiver is read as what it says, and one with such a receiver never is.
-/

namespace RowCode

namespace Code

variable {c : Code} {f : Code → Code}

theorem underPrefixes_id : (c : Code) → c.underPrefixes id = c
  | unary _ c | cast c _ => by rw [underPrefixes, underPrefixes_id c]
  | null | boolean _ | numeral _ | string _ | name _ | field _ _ | call _ _ _ | construct _ _
  | binary _ _ _ | conditional _ _ _ | element _ _ | lambda _ _ => rfl

theorem underPrefixes_of_bare (hbare : c.isPrefixed = false) : c.underPrefixes f = f c := by
  cases c with
  | unary _ _ | cast _ _ => cases hbare
  | _ => rfl

theorem isPrefixed_underPrefixes (hprefixed : c.isPrefixed = true) :
    (c.underPrefixes f).isPrefixed = true := by
  cases c with
  | unary _ _ | cast _ _ => rfl
  | _ => cases hprefixed

end Code

namespace Expr

variable {e e' : Expr} {f : Code → Code} {c : Code}

/-! ### What is done to a receiver -/

/-- What is done to the operand is done to all of it. -/
def IsReceiver (e : Expr) : Prop := ∀ f, e.reading f = f (e.reading id)

theorem IsReceiver.followed (h : e.IsReceiver) (done : Code → Code) (f : Code → Code) :
    e.reading (fun c => f (done c)) = f (e.reading fun c => id (done c)) :=
  (h _).trans (congrArg f (h _).symm)

theorem isReceiver_or_isPrefixed : (e : Expr) →
    e.IsReceiver ∨ ∀ f, (e.reading f).isPrefixed = true
  | constant value ty => by
      cases hprefixed : (Code.ofConstant value ty).isPrefixed with
      | false =>
          refine .inl fun f => ?_
          rw [reading, reading, Code.underPrefixes_of_bare hprefixed, Code.underPrefixes_id]
      | true =>
          refine .inr fun f => ?_
          rw [reading]
          exact Code.isPrefixed_underPrefixes hprefixed
  | call target method args _ => by
      refine (isReceiver_or_isPrefixed target).imp (fun h f => ?_) fun h f => ?_
      · rw [reading, reading]
        exact h.followed _ f
      · rw [reading]
        exact h _
  | element array i _ => by
      refine (isReceiver_or_isPrefixed array).imp (fun h f => ?_) fun h f => ?_
      · rw [reading, reading]
        exact h.followed _ f
      · rw [reading]
        exact h _
  | unary _ _ _ => .inr fun f => by rw [reading, Code.isPrefixed]
  | var _ | staticCall _ _ _ _ | construct _ _ | binary _ _ _ _ | conditional _ _ _ _ | cast _ _
  | lambda _ _ => .inl fun f => by rw [reading, reading, id]

/-- Code without a prefix in front comes of a receiver only. -/
theorem reading_eq_iff (hc : c.isPrefixed = false) :
    e.reading f = c ↔ e.IsReceiver ∧ f (e.reading id) = c := by
  constructor
  · intro hcode
    rcases isReceiver_or_isPrefixed e with hreceiver | hprefixed
    · exact ⟨hreceiver, (hreceiver f).symm.trans hcode⟩
    · rw [← hcode, hprefixed f] at hc
      cases hc
  · rintro ⟨hreceiver, rfl⟩
    exact hreceiver f

theorem isPrefixed_reading (hopens : e.opensWithPrefix = true) :
    (e.reading f).isPrefixed = true := by
  cases e with
  | constant value ty =>
      have hprefixed : (Code.ofConstant value ty).isPrefixed = true := by
        simpa [opensWithPrefix, needsParens, code] using hopens
      rw [reading]
      exact Code.isPrefixed_underPrefixes hprefixed
  | unary _ _ _ => rw [reading, Code.isPrefixed]
  | _ => simp [opensWithPrefix, needsParens, code, Code.isPrefixed] at hopens

/-- Of operands that are read as their code, all are receivers but those that open with a prefix. -/
theorem isReceiver_iff (hcode : e.reading id = e.code) :
    e.IsReceiver ↔ e.opensWithPrefix = false := by
  constructor
  · intro hreceiver
    refine Bool.eq_false_iff.mpr fun hopens => ?_
    -- A receiver leaves nothing of itself where what is done to it drops it.
    have hprefixed : (e.reading fun _ => .null).isPrefixed = true := isPrefixed_reading hopens
    rw [hreceiver] at hprefixed
    cases hprefixed
  · intro hbare
    rcases isReceiver_or_isPrefixed e with hreceiver | hprefixed
    · exact hreceiver
    · have hcodes : e.code.isPrefixed = true := hcode ▸ hprefixed id
      have hneeds : e.needsParens = true := by simpa [opensWithPrefix, hcodes] using hbare
      exact congrFun (reading_of_needsParens hneeds)

mutual

/-- **Where expressions are read as what they say.** -/
theorem reading_eq_code_iff : (e : Expr) → (e.reading id = e.code ↔
    ∀ receiver ∈ e.receivers, receiver.opensWithPrefix = false)
  | constant value ty => by simp [reading, code, receivers, Code.underPrefixes_id]
  | var v => by simp [reading, code, receivers]
  | call target method args ty => by
      rw [receivers, List.forall_mem_cons, List.forall_mem_append, ← reading_eq_code_iff target,
        ← readings_eq_codes_iff args, reading, code, reading_eq_iff rfl, id, Code.call.injEq,
        eq_self, true_and]
      exact and_congr_left fun h => isReceiver_iff h.1
  | staticCall owner method args ty => by
      simp [reading, code, receivers, readings_eq_codes_iff args]
  | construct ty args => by simp [reading, code, receivers, readings_eq_codes_iff args]
  | binary o left right ty => by
      rw [receivers, List.forall_mem_append, ← reading_eq_code_iff left,
        ← reading_eq_code_iff right, reading, code, id, Code.binary.injEq, and_iff_right rfl]
  | unary o operand ty => by
      rw [receivers, ← reading_eq_code_iff operand, reading, code, Code.unary.injEq,
        and_iff_right rfl]
  | conditional test ifTrue ifFalse ty => by
      rw [receivers, List.forall_mem_append, List.forall_mem_append, ← reading_eq_code_iff test,
        ← reading_eq_code_iff ifTrue, ← reading_eq_code_iff ifFalse, reading, code, id,
        Code.conditional.injEq, and_assoc]
  | cast operand ty => by
      rw [receivers, ← reading_eq_code_iff operand, reading, code, id, Code.cast.injEq,
        and_iff_left rfl]
  | element array i ty => by
      rw [receivers, List.forall_mem_cons, ← reading_eq_code_iff array, reading, code,
        reading_eq_iff rfl, id, Code.element.injEq, and_iff_left rfl]
      exact and_congr_left isReceiver_iff
  | lambda parameters body => by
      rw [receivers, ← reading_eq_code_iff body, reading, code, id, Code.lambda.injEq,
        and_iff_right rfl]

theorem readings_eq_codes_iff : (es : List Expr) → (readings es = codes es ↔
    ∀ receiver ∈ receiversOfAll es, receiver.opensWithPrefix = false)
  | [] => by simp [readings, codes, receiversOfAll]
  | e :: rest => by
      rw [receiversOfAll, List.forall_mem_append, ← reading_eq_code_iff e,
        ← readings_eq_codes_iff rest, readings, codes, List.cons.injEq]

end

/-! ### What the text tells -/

theorem read_tokens_eq_code_iff (hnames : ∀ name ∈ e.names, Text.isName name = true) :
    Reader.read e.tokens = some e.code ↔
      ∀ receiver ∈ e.receivers, receiver.opensWithPrefix = false := by
  rw [read_tokens hnames, Option.some.injEq]
  exact reading_eq_code_iff e

/-- **The text tells the reading.** -/
theorem reading_eq_of_text_eq (hnames : ∀ name ∈ e.names, Text.isName name = true)
    (hnames' : ∀ name ∈ e'.names, Text.isName name = true) (htext : e.text = e'.text) :
    e.reading id = e'.reading id := by
  have hword : ∀ {s : String}, Text.isName s = true → Text.isWord s = true :=
    fun hs => (Bool.and_eq_true_iff.mp hs).1
  have htokens : e.tokens = e'.tokens :=
    tokens_eq_of_text_eq (fun name hname => hword (hnames name hname))
      (fun name hname => hword (hnames' name hname)) htext
  have hread := read_tokens hnames
  rw [htokens, read_tokens hnames'] at hread
  exact (Option.some.inj hread).symm

theorem code_eq_of_text_eq (hnames : ∀ name ∈ e.names, Text.isName name = true)
    (hnames' : ∀ name ∈ e'.names, Text.isName name = true)
    (hreceivers : ∀ receiver ∈ e.receivers, receiver.opensWithPrefix = false)
    (hreceivers' : ∀ receiver ∈ e'.receivers, receiver.opensWithPrefix = false)
    (htext : e.text = e'.text) : e.code = e'.code := by
  rw [← (reading_eq_code_iff e).mpr hreceivers, ← (reading_eq_code_iff e').mpr hreceivers']
  exact reading_eq_of_text_eq hnames hnames' htext

/-- **Parentheses suffice.** Let names be names, and let nothing be called or accessed on an
expression that stands there without parentheses and opens with an operator or a cast. Then
expressions with the same text say the same. Where all constants are bare and no variable is named
like a class, the expressions are the same but for the types that are not written. -/
theorem eq_of_text_eq {e e' : Expr} (hnames : ∀ name ∈ e.names, Text.isName name = true)
    (hnames' : ∀ name ∈ e'.names, Text.isName name = true)
    (hreceivers : ∀ receiver ∈ e.receivers, receiver.opensWithPrefix = false)
    (hreceivers' : ∀ receiver ∈ e'.receivers, receiver.opensWithPrefix = false)
    (htext : e.text = e'.text) :
    e.code = e'.code ∧ ∀ isClass : String → Bool, e.isBare isClass = true →
      e'.isBare isClass = true → e.erased = e'.erased := by
  have hcode := code_eq_of_text_eq hnames hnames' hreceivers hreceivers' htext
  exact ⟨hcode, fun _ hbare hbare' => erased_eq_of_code_eq hbare hbare' hcode⟩

/-- A call on a cast, with the negation of a number, where the types of the variable, of the number
and of the call differ. -/
theorem eq_of_negated_argument :
    let x (ty : HostType) : Expr := cast (var ⟨"x", ty⟩) (.boxed .long)
    let five (ty : HostType) : Expr := constant (.int32 5) ty
    let e := call (x .object) "plus" [unary .negate (five .int) .int] .long
    let e' := call (x .string) "plus" [unary .negate (five .object) .int] .object
    e.text = e'.text ∧ e.code = e'.code ∧ e.erased = e'.erased := by
  intro x five e e'
  have htext : e.text = e'.text := text_eq_of_tokens_eq rfl
  have hequal := eq_of_text_eq (by decide) (by decide)
    (by simp [e, x, five, receivers, receiversOfAll, opensWithPrefix, needsParens])
    (by simp [e', x, five, receivers, receiversOfAll, opensWithPrefix, needsParens]) htext
  exact ⟨htext, hequal.1, hequal.2 (fun _ => false) (by decide) (by decide)⟩

/-- The text does not tell a null with a type from a cast. -/
theorem erased_ne_of_typed_null :
    let e := nullOf (.boxed .long)
    let e' := cast null (.boxed .long)
    e.names = [] ∧ e'.names = [] ∧ e.text = e'.text ∧ e.erased ≠ e'.erased := by
  intro e e'
  have htext : e.text = e'.text := text_eq_of_tokens_eq rfl
  refine ⟨rfl, rfl, htext, ?_⟩
  simp [e, e', nullOf, erased]

/-! ### Receivers that are not told -/

/-- A call on a negation is written like the negation of a call. -/
theorem text_call_unary (o : UnaryOp) (operand : Expr) (method : String) (args : List Expr)
    (ty ty' : HostType) :
    (call (unary o operand ty) method args ty').text =
      (unary o (call operand method args ty) ty').text := by
  refine text_eq_of_tokens_eq ?_
  simp [tokens, needsParens, Token.guarded]

/-- A call on a byte is written like a cast of the call on the number. -/
theorem text_call_int8 (n : Int8) (method : String) (args : List Expr) (ty ty' : HostType) :
    (call (constant (.int8 n) ty) method args ty').text =
      (cast (call (constant (.int32 n.toInt32) ty) method args ty') (.primitive .byte)).text := by
  refine text_eq_of_tokens_eq ?_
  simp [tokens, needsParens, Token.guarded, Token.ofConstant, Token.casting]

/-- A byte that may be null, as an integer that may not. -/
def byteProgram : Program where
  inputRowType := []
  exprs := [.call .cast [.literal (.int8 5) (.orNull .tinyInt)] (.notNull .integer)]
  projects := [.localRef 0 (.notNull .integer)]
  condition := none
  faultless := by decide

def byteContext : LoweringContext where
  program := byteProgram
  adapter := .standard
  inputs := []
  policy := .shared
  stem := "v"
  table := .standard

/-- **What a call is made on is not told**, where it opens with a cast or an operator: a call on a
byte, which a pass returns, is not told from a cast, nor a call on a negation from a negation. -/
theorem receiver_is_not_told :
    let onByte := call (constant (.int8 5) (.boxed .byte)) "intValue" [] .int
    let castOfCall :=
      cast (call (constant (.int32 5) (.boxed .byte)) "intValue" [] .int) (.primitive .byte)
    let x := var ⟨"x", .boxed .int⟩
    let onNegation := call (unary .negate x (.boxed .int)) "intValue" [] .int
    let negationOfCall := unary .negate (call x "intValue" [] (.boxed .int)) .int
    byteContext.lowerProjects .empty = (.ok [onByte], .empty) ∧
      (∀ e ∈ [onByte, castOfCall, onNegation, negationOfCall],
        ∀ name ∈ e.names, Text.isName name = true) ∧
      (onByte.text = castOfCall.text ∧ onByte.code ≠ castOfCall.code ∧
        onByte.erased ≠ castOfCall.erased) ∧
      onNegation.text = negationOfCall.text ∧ onNegation.code ≠ negationOfCall.code ∧
        onNegation.erased ≠ negationOfCall.erased := by
  intro onByte castOfCall x onNegation negationOfCall
  refine ⟨by rfl, by decide, ⟨text_call_int8 5 _ _ _ _, ?_, ?_⟩,
    text_call_unary _ _ _ _ _ _, ?_, ?_⟩
  · simp [onByte, castOfCall, code]
  · simp [onByte, castOfCall, erased]
  · simp [onNegation, negationOfCall, code]
  · simp [onNegation, negationOfCall, erased]

end Expr

end RowCode
