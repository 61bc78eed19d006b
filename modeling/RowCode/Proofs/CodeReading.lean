import RowCode.Proofs.BareCode
import RowCode.Proofs.CodeReader
import RowCode.Proofs.CodeSeams

/-!
# Code is read back

An operand leaves its prefixes waiting, and what needs parentheses leaves something waiting that the
parentheses bring to an end. So the tokens of an expression are read as its code, except where a
call or an access is made on an operand that has prefixes and no parentheses: it is made on what
they are applied to.
-/

namespace RowCode

/-! ### What each form is read as -/

/-- The tokens are read as an operand for which some operators wait. -/
def ReadAs (ts : List (Token Numeral)) (inner : List Pending) (c : Code) : Prop :=
  ∀ frames outer, Reader.Reads ⟨frames, outer, .start⟩ ts ⟨frames, inner ++ outer, .operand c⟩

/-- The tokens are read like this where nothing binds tighter than operators do. -/
def ReadAloneAs (ts : List (Token Numeral)) (inner : List Pending) (c : Code) : Prop :=
  ∀ frames outer, Pending.IsLoose outer →
    Reader.Reads ⟨frames, outer, .start⟩ ts ⟨frames, inner ++ outer, .operand c⟩

/-- The tokens are read as an operand, whose prefixes are applied to whatever is done to it. -/
def IsOperand (ts : List (Token Numeral)) (reading : (Code → Code) → Code) : Prop :=
  ∃ inner c, ReadAs ts inner c ∧ (∀ p ∈ inner, p.isPrefix = true) ∧
    ∀ f, Pending.settle inner (f c) = reading f

/-- The tokens by themselves are read as the code. -/
def IsAlone (ts : List (Token Numeral)) (code : Code) : Prop :=
  ∃ inner c, ReadAloneAs ts inner c ∧ Pending.settle inner c = code

/-- Something waits for the end of the tokens, so that they need parentheses. -/
def IsUnsettled (ts : List (Token Numeral)) (code : Code) : Prop :=
  ∃ inner c, ReadAloneAs ts inner c ∧ Pending.settle inner c = code ∧ inner ≠ []

open Pending Reader

variable {ts us vs : List (Token Numeral)} {code : Code} {reading left right : (Code → Code) → Code}

theorem IsOperand.alone (h : IsOperand ts reading) : IsAlone ts (reading id) := by
  obtain ⟨inner, c, hread, -, hcode⟩ := h
  exact ⟨inner, c, fun frames outer _ => hread frames outer, hcode id⟩

theorem ReadAs.isOperand (h : ReadAs ts [] code) : IsOperand ts fun f => f code :=
  ⟨[], code, h, by simp, fun _ => rfl⟩

/-- What follows an operand is done to it while its prefixes still wait. -/
theorem IsOperand.followed (h : IsOperand ts reading) {done : Code → Code}
    (hread : ∀ c frames outer, Reads ⟨frames, outer, .operand c⟩ us
      ⟨frames, outer, .operand (done c)⟩) :
    IsOperand (ts ++ us) fun f => reading fun c => f (done c) := by
  obtain ⟨inner, c, hread', hinner, hcode⟩ := h
  exact ⟨inner, done c, fun frames outer => (hread' frames outer).append (hread c frames _), hinner,
    fun f => hcode fun c => f (done c)⟩

theorem readAs_name {s : String} (hs : Text.isName s = true) : ReadAs [.word s] [] (.name s) := by
  intro frames outer
  obtain ⟨-, hkeyword⟩ : Text.isWord s = true ∧ s ∉ Text.keywords := by
    simpa [Text.isName] using hs
  have hfocus : Focus.ofWord s = .operand (.name s) := by
    simp only [Text.keywords, List.mem_cons, List.not_mem_nil, or_false, not_or] at hkeyword
    obtain ⟨hnull, htrue, hfalse, hnew⟩ := hkeyword
    rw [Focus.ofWord, if_neg hnull, if_neg htrue, if_neg hfalse, if_neg hnew]
  exact .cons (by rw [step, Reader.word, hfocus]; rfl) (.nil _)

theorem readAs_field {owner : String} (howner : Text.isName owner = true) (name : String) :
    ReadAs [.word owner, .dot, .word name] [] (.field (.name owner) name) := fun frames outer =>
  (readAs_name howner frames outer).append (.cons rfl (.cons rfl (.nil _)))

/-- A prefix waits after those that are read later. -/
theorem IsOperand.prefixed (h : IsOperand ts reading) {waiting : Pending}
    (hwaiting : waiting.isPrefix = true)
    (hread : ∀ frames outer, Reads ⟨frames, outer, .start⟩ us ⟨frames, waiting :: outer, .start⟩) :
    IsOperand (us ++ ts) (fun f => waiting.apply (reading f)) ∧
      IsUnsettled (us ++ ts) (waiting.apply (reading id)) := by
  obtain ⟨inner, c, hread', hinner, hcode⟩ := h
  have hreads : ReadAs (us ++ ts) (inner ++ [waiting]) c := by
    intro frames outer
    rw [List.append_assoc]
    exact (hread frames outer).append (hread' frames (waiting :: outer))
  have hsettled : ∀ f, settle (inner ++ [waiting]) (f c) = waiting.apply (reading f) := fun f =>
    (settle_append inner [waiting] (f c)).trans (congrArg waiting.apply (hcode f))
  exact ⟨⟨_, c, hreads, List.forall_mem_append.mpr ⟨hinner, by simpa using hwaiting⟩, hsettled⟩,
    ⟨_, c, fun frames outer _ => hreads frames outer, hsettled id, by simp⟩⟩

theorem IsOperand.unary (h : IsOperand ts reading) (o : UnaryOp) :
    IsOperand (Token.ofUnary o :: ts) fun f => .unary o (reading f) := by
  have hread : ∀ frames outer, Reads ⟨frames, outer, .start⟩ [Token.ofUnary o]
      ⟨frames, .unary o :: outer, .start⟩ := by
    intro frames outer
    cases o with
    | not => exact .cons rfl (.nil _)
    | negate => exact .cons rfl (.nil _)
  exact (h.prefixed rfl hread).1

theorem IsOperand.signed (h : IsOperand ts code.underPrefixes) (negative : Bool) :
    IsOperand (Token.signed negative ts) (Code.signed negative code).underPrefixes := by
  cases negative with
  | true => exact h.unary .negate
  | false => exact h

/-! #### Types -/

/-- Types are plain or arrays. -/
@[elab_as_elim]
theorem HostType.plainOrArray {motive : HostType → Prop} (ty : HostType)
    (plain : ∀ ty, Token.ofType ty = [.word ty.text] → HostType.ofName? ty.text = some ty →
      Text.isName ty.text = true → motive ty)
    (array : ∀ component, motive component → motive (.array component)) : motive ty := by
  induction ty with
  | array component ih => exact array component ih
  | primitive p => exact plain _ rfl (by cases p <;> decide) (by cases p <;> decide)
  | boxed p => exact plain _ rfl (by cases p <;> decide) (by cases p <;> decide)
  | string | decimal | bigInteger | object => exact plain _ rfl (by decide) (by decide)

theorem reads_ofType (ty : HostType) (frames : List Frame) (outer : List Pending) :
    Reads ⟨frames, outer, .construct⟩ (Token.ofType ty) ⟨frames, outer, .type ty⟩ := by
  induction ty using HostType.plainOrArray with
  | plain ty htokens hname _ =>
      rw [htokens]
      exact .cons (by rw [step, Reader.word, hname]; rfl) (.nil _)
  | array component ih => exact ih.append (.cons rfl (.nil _))

theorem reads_component (ty : HostType) (frames : List Frame) (outer : List Pending) :
    Reads ⟨frames, outer, .start⟩ (Token.ofType ty ++ [.brackets])
      ⟨frames, outer, .type (.array ty)⟩ := by
  induction ty using HostType.plainOrArray with
  | plain ty htokens hname hword =>
      rw [htokens]
      have hbrackets : step ⟨frames, outer, .operand (.name ty.text)⟩ .brackets =
          some ⟨frames, outer, .type (.array ty)⟩ :=
        congrArg (Option.map fun ty => Reader.mk frames outer (.type (.array ty))) hname
      exact (readAs_name hword frames outer).append (.cons hbrackets (.nil _))
  | array component ih => exact ih.append (.cons rfl (.nil _))

/-- A type in parentheses is that of a cast. -/
theorem reads_casting (ty : HostType) (frames : List Frame) (outer : List Pending) :
    Reads ⟨.group outer :: frames, [], .start⟩ (Token.ofType ty ++ [.closing])
      ⟨frames, .cast ty :: outer, .start⟩ := by
  cases ty using HostType.plainOrArray with
  | plain ty htokens hname hword =>
      rw [htokens]
      have hclosing : step ⟨.group outer :: frames, [], .operand (.name ty.text)⟩ .closing =
          some ⟨frames, .cast ty :: outer, .start⟩ :=
        congrArg (Option.map fun ty => Reader.mk frames (.cast ty :: outer) .start) hname
      exact (readAs_name hword (.group outer :: frames) []).append (.cons hclosing (.nil _))
  | array component _ => exact (reads_component component _ []).append (.cons rfl (.nil _))

theorem IsOperand.casting (h : IsOperand ts reading) (ty : HostType) :
    IsOperand (Token.casting ty ts) (fun f => .cast (reading f) ty) ∧
      IsUnsettled (Token.casting ty ts) (.cast (reading id) ty) := by
  have htokens : Token.casting ty ts =
      (.opening :: (Token.ofType ty ++ [.closing]) ++ [.space]) ++ ts := by
    simp [Token.casting]
  have hread : ∀ frames outer, Reads ⟨frames, outer, .start⟩
      (.opening :: (Token.ofType ty ++ [.closing]) ++ [.space])
      ⟨frames, .cast ty :: outer, .start⟩ := fun frames outer =>
    .append (.cons rfl (reads_casting ty frames outer)) (.cons rfl (.nil _))
  rw [htokens]
  exact h.prefixed rfl hread

/-! #### Arguments -/

theorem reads_items {items : List (List (Token Numeral))} {codes : List Code}
    (h : List.Forall₂ IsAlone items codes) (callee : Callee) (done : List Code)
    (frames : List Frame) (outer : List Pending) :
    Reads ⟨.arguments callee done outer :: frames, [], .start⟩
      ([.comma, .space].intercalate items ++ [.closing])
      ⟨frames, outer, .operand (callee.apply (done ++ codes))⟩ := by
  induction h generalizing done with
  | nil =>
      rw [List.append_nil]
      exact .cons rfl (.nil _)
  | @cons ts code items codes hts hitems ih =>
      obtain ⟨inner, c, hread, rfl⟩ := hts
      have hfirst := hread (.arguments callee done outer :: frames) [] (by simp [IsLoose])
      rw [List.append_nil] at hfirst
      cases hitems with
      | nil =>
          rw [List.intercalate_singleton]
          exact hfirst.append (.cons rfl (.nil _))
      | cons _ _ =>
          rw [List.intercalate_cons_cons, List.append_assoc, List.append_assoc,
            List.append_cons done]
          exact hfirst.append (.cons (t := .comma) rfl (.cons (t := .space) rfl (ih _)))

theorem reads_method {items : List (List (Token Numeral))} {codes : List Code}
    (h : List.Forall₂ IsAlone items codes) (target : Code) (method : String)
    (frames : List Frame) (outer : List Pending) :
    Reads ⟨frames, outer, .operand target⟩ (.dot :: .word method :: Token.listed items)
      ⟨frames, outer, .operand (.call target method codes)⟩ :=
  .cons rfl (.cons rfl (.cons rfl (reads_items h (.method target method) [] frames outer)))

theorem readAs_construct {items : List (List (Token Numeral))} {codes : List Code}
    (h : List.Forall₂ IsAlone items codes) (ty : HostType) :
    ReadAs (.word "new" :: .space :: (Token.ofType ty ++ Token.listed items)) []
      (.construct ty codes) := fun frames outer =>
  .cons rfl (.cons rfl ((reads_ofType ty frames outer).append
    (.cons rfl (reads_items h (.type ty) [] frames outer))))

/-! #### Operators -/

theorem IsUnsettled.alone (h : IsUnsettled ts code) : IsAlone ts code := by
  obtain ⟨inner, c, hread, hcode, -⟩ := h
  exact ⟨inner, c, hread, hcode⟩

/-- Parentheses bring together what stands in them. -/
theorem IsUnsettled.readAs (h : IsUnsettled ts code) :
    ReadAs (.opening :: (ts ++ [.closing])) [] code := by
  obtain ⟨inner, c, hread, rfl, hne⟩ := h
  intro frames outer
  have hinside := hread (.group outer :: frames) [] (by simp [IsLoose])
  rw [List.append_nil] at hinside
  obtain ⟨p, inner, rfl⟩ := List.exists_cons_of_ne_nil hne
  exact .cons rfl (hinside.append (.cons rfl (.nil _)))

theorem isLoose_cons {p : Pending} (hp : p.isPrefix = false) (outer : List Pending) :
    IsLoose (p :: outer) := by
  simpa [IsLoose] using hp

theorem between_append {frames : List Frame} {outer inner : List Pending} (c : Code)
    (hinner : ∀ p ∈ inner, p.isPrefix = true) (houter : IsLoose outer) (waiting : Code → Pending) :
    Reader.between ⟨frames, inner ++ outer, .operand c⟩ waiting =
      some ⟨frames, waiting (settle inner c) :: outer, .start⟩ := by
  unfold Reader.between
  simp only
  rw [tighten_append hinner houter]

theorem IsOperand.binary (hleft : IsOperand ts left) (hright : IsOperand us right) (o : BinaryOp) :
    IsUnsettled (ts ++ .space :: .op o :: .space :: us) (.binary o (left id) (right id)) := by
  obtain ⟨inner, c, hreadLeft, hinner, hcode⟩ := hleft
  obtain ⟨inner', c', hreadRight, -, hcode'⟩ := hright
  rw [← hcode id, ← hcode' id]
  refine ⟨inner' ++ [.binary o (settle inner c)], c', fun frames outer houter => ?_,
    settle_append .., by simp⟩
  rw [List.append_assoc inner']
  exact (hreadLeft frames outer).append (.cons rfl (.cons (between_append c hinner houter _)
    (.cons rfl (hreadRight frames _))))

theorem colon_append {frames : List Frame} {outer inner : List Pending} (c condition : Code)
    (hinner : ∀ p ∈ inner, p.isPrefix = true) :
    Reader.colon ⟨frames, inner ++ .test condition :: outer, .operand c⟩ =
      some ⟨frames, .branch condition (settle inner c) :: outer, .start⟩ := by
  have hbound := tighten_append (c := c) hinner (isLoose_cons (p := .test condition) rfl outer)
  unfold Reader.colon
  simp only
  rw [hbound]

theorem IsOperand.conditional {condition ifTrue ifFalse : (Code → Code) → Code}
    (hcondition : IsOperand ts condition) (hifTrue : IsOperand us ifTrue)
    (hifFalse : IsOperand vs ifFalse) :
    IsUnsettled (ts ++ .space :: .question :: .space :: (us ++ .space :: .colon :: .space :: vs))
      (.conditional (condition id) (ifTrue id) (ifFalse id)) := by
  obtain ⟨inner, c, hread, hinner, hcode⟩ := hcondition
  obtain ⟨inner', c', hread', hinner', hcode'⟩ := hifTrue
  obtain ⟨inner'', c'', hread'', -, hcode''⟩ := hifFalse
  rw [← hcode id, ← hcode' id, ← hcode'' id]
  refine ⟨inner'' ++ [.branch (settle inner c) (settle inner' c')], c'',
    fun frames outer houter => ?_, settle_append .., by simp⟩
  rw [List.append_assoc inner'']
  exact (hread frames outer).append (.cons rfl (.cons (between_append c hinner houter _)
    (.cons rfl ((hread' frames _).append (.cons rfl (.cons (colon_append c' _ hinner')
      (.cons rfl (hread'' frames _))))))))

/-! #### Functions -/

theorem reads_parameters (p : Variable) (ps : List Variable) (done : List String)
    (frames : List Frame) (outer : List Pending) :
    Reads ⟨.group outer :: frames, [], .parameters done⟩
      ([.comma, .space].intercalate ((p :: ps).map fun p => [.word p.name]) ++ [.closing])
      ⟨frames, outer, .parameterList (done ++ (p :: ps).map Variable.name)⟩ := by
  induction ps generalizing p done with
  | nil => exact .cons rfl (.cons rfl (.nil _))
  | cons q ps ih =>
      rw [List.map_cons, List.map_cons, List.intercalate_cons_cons, List.map_cons,
        List.append_cons done]
      exact .cons rfl (.cons rfl (.cons rfl (ih q _)))

theorem reads_ofParameters {ps : List Variable} (hps : ∀ p ∈ ps, Text.isName p.name = true)
    (frames : List Frame) (outer : List Pending) :
    Reads ⟨frames, outer, .start⟩ (Token.ofParameters ps ++ [.space, .arrow])
      ⟨frames, .lambda (ps.map Variable.name) :: outer, .start⟩ := by
  have harrow : Reads ⟨frames, outer, .parameterList (ps.map Variable.name)⟩ [.space, .arrow]
      ⟨frames, .lambda (ps.map Variable.name) :: outer, .start⟩ := .cons rfl (.cons rfl (.nil _))
  cases ps with
  | nil => exact .cons rfl (.cons rfl harrow)
  | cons p ps =>
      have hp := readAs_name (hps p List.mem_cons_self)
      cases ps with
      | nil => exact (hp frames outer).append (.cons rfl (.cons rfl (.nil _)))
      | cons q ps =>
          have hparameters := reads_parameters q ps [p.name] frames outer
          have hlist : Reads ⟨frames, outer, .start⟩ (Token.ofParameters (p :: q :: ps))
              ⟨frames, outer, .parameterList ((p :: q :: ps).map Variable.name)⟩ := by
            rw [Token.ofParameters, Token.listed, List.map_cons, List.map_cons,
              List.intercalate_cons_cons]
            · exact .cons rfl ((hp (.group outer :: frames) []).append
                (.cons rfl (.cons rfl hparameters)))
            · simp
          exact hlist.append harrow

theorem IsAlone.lambda {ps : List Variable} (hps : ∀ p ∈ ps, Text.isName p.name = true)
    (hbody : IsAlone ts code) :
    IsUnsettled (Token.ofParameters ps ++ .space :: .arrow :: .space :: ts)
      (.lambda (ps.map Variable.name) code) := by
  obtain ⟨inner, c, hread, rfl⟩ := hbody
  refine ⟨inner ++ [.lambda (ps.map Variable.name)], c, fun frames outer houter => ?_,
    settle_append .., by simp⟩
  have htokens : Token.ofParameters ps ++ .space :: .arrow :: .space :: ts =
      (Token.ofParameters ps ++ [.space, .arrow]) ++ .space :: ts := by simp
  rw [htokens, List.append_assoc inner]
  exact (reads_ofParameters hps frames outer).append
    (.cons rfl (hread frames _ (isLoose_cons rfl outer)))

/-! #### Constants -/

theorem isOperand_numeral (n : Numeral) : IsOperand [.numeral n] (Code.numeral n).underPrefixes :=
  ReadAs.isOperand fun _ _ => .cons rfl (.nil _)

theorem isOperand_name {s : String} (hs : Text.isName s = true) :
    IsOperand [.word s] (Code.name s).underPrefixes :=
  (readAs_name hs).isOperand

theorem isOperand_ofInteger (i : Int) :
    IsOperand (Token.ofInteger i) (Code.ofInteger i).underPrefixes :=
  (isOperand_numeral _).signed _

theorem isOperand_ofFloat {owner : String} (howner : Text.isName owner = true)
    (numeral : Nat → Int → Numeral) (negative : Bool) (magnitude : Magnitude) :
    IsOperand (Token.ofFloat owner numeral negative magnitude)
      (Code.ofFloat owner numeral negative magnitude).underPrefixes := by
  cases magnitude with
  | finite significand exponent => exact (isOperand_numeral _).signed negative
  | infinite => exact (readAs_field howner _).isOperand
  | nan => exact (readAs_field howner _).isOperand

theorem isName_decimalName (signaling : Bool) (payload : Nat) :
    Text.isName (Code.decimalName signaling payload) = true := by
  have hkeywords : ∀ s ∈ Text.keywords, s.toList.head? ≠ some 's' ∧ s.toList.head? ≠ some 'N' := by
    decide
  have hkeyword : Code.decimalName signaling payload ∉ Text.keywords := by
    intro hmem
    have hhead := hkeywords _ hmem
    rw [Code.decimalName, String.toList_ofList] at hhead
    cases signaling with
    | true => exact hhead.1 rfl
    | false => exact hhead.2 rfl
  simp [Text.isName, Token.isWord_decimalName, hkeyword]

theorem isOperand_ofDecimal (d : Decimal) :
    IsOperand (Token.ofDecimal d) (Code.ofDecimal d).underPrefixes := by
  cases d with
  | finite negative coefficient exponent _ => exact (isOperand_numeral _).signed negative
  | infinite negative => exact (isOperand_name (by decide)).signed negative
  | nan negative signaling payload _ =>
      exact (isOperand_name (isName_decimalName signaling payload)).signed negative

theorem isOperand_ofConstant (value : Value) (ty : HostType) :
    IsOperand (Token.ofConstant value ty) (Code.ofConstant value ty).underPrefixes := by
  have hnull : IsOperand [.word "null"] Code.null.underPrefixes :=
    ReadAs.isOperand fun _ _ => .cons rfl (.nil _)
  cases value with
  | null =>
      unfold Token.ofConstant Code.ofConstant
      simp only
      split
      · exact hnull
      · exact (hnull.casting ty).1
  | boolean b =>
      cases b with
      | false => exact ReadAs.isOperand fun _ _ => .cons rfl (.nil _)
      | true => exact ReadAs.isOperand fun _ _ => .cons rfl (.nil _)
  | int8 n => exact ((isOperand_ofInteger _).casting _).1
  | int16 n => exact ((isOperand_ofInteger _).casting _).1
  | int32 n => exact isOperand_ofInteger _
  | int64 n => exact (isOperand_numeral _).signed _
  | float x => exact isOperand_ofFloat (by decide) _ _ _
  | double x => exact isOperand_ofFloat (by decide) _ _ _
  | decimal d => exact isOperand_ofDecimal d
  | string s => exact ReadAs.isOperand fun _ _ => .cons rfl (.nil _)

/-! ### Whole expressions -/

namespace Expr

/-- The tokens are read like the expression, and if they need parentheses, then something waits for
their end. -/
def IsRead (e : Expr) : Prop :=
  if e.needsParens then IsUnsettled e.tokens (e.reading id) else IsOperand e.tokens e.reading

variable {e e' : Expr}

theorem IsRead.alone (h : e.IsRead) : IsAlone e.tokens (e.reading id) := by
  unfold IsRead at h
  split at h
  · exact h.alone
  · exact h.alone

/-- What stands in parentheses is taken as a whole. -/
theorem reading_of_needsParens (hneeds : e.needsParens = true) :
    e.reading = fun f => f (e.reading id) := by
  cases e with
  | binary _ _ _ _ | conditional _ _ _ _ | cast _ _ | lambda _ _ =>
      funext f
      rw [reading, reading, id]
  | _ => cases hneeds

theorem IsRead.operand (h : e.IsRead) : IsOperand e.operandTokens e.reading := by
  unfold IsRead at h
  unfold operandTokens Token.guarded
  split at h
  · rename_i hneeds
    rw [if_pos hneeds, reading_of_needsParens hneeds]
    exact h.readAs.isOperand
  · rename_i hneeds
    rw [if_neg hneeds]
    exact h

mutual

/-- **The tokens of an expression are read like the expression.** -/
theorem isRead : (e : Expr) → (∀ name ∈ e.names, Text.isName name = true) → e.IsRead
  | constant value ty, _ => by
      change IsOperand (constant value ty).tokens (Code.ofConstant value ty).underPrefixes
      rw [tokens]
      exact isOperand_ofConstant value ty
  | var v, hnames => by
      change IsOperand (var v).tokens fun f => f (.name v.name)
      rw [tokens]
      exact isOperand_name (hnames v.name (by simp [names]))
  | call target method args ty, hnames => by
      rw [names, List.forall_mem_append, List.forall_mem_cons] at hnames
      obtain ⟨htarget, -, hargs⟩ := hnames
      have hreceiver := (isRead target htarget).operand
      have hitems := isRead_all args hargs
      change IsOperand (call target method args ty).tokens fun f =>
        target.reading fun c => f (.call c method (readings args))
      rw [tokens]
      exact hreceiver.followed fun c => reads_method hitems c method
  | staticCall owner method args ty, hnames => by
      rw [names, List.forall_mem_cons, List.forall_mem_cons] at hnames
      obtain ⟨howner, -, hargs⟩ := hnames
      have hitems := isRead_all args hargs
      change IsOperand (staticCall owner method args ty).tokens fun f =>
        f (.call (.name owner) method (readings args))
      rw [tokens]
      exact (readAs_name howner).isOperand.followed fun c => reads_method hitems c method
  | construct ty args, hnames => by
      rw [names] at hnames
      have hitems := isRead_all args hnames
      change IsOperand (construct ty args).tokens fun f => f (.construct ty (readings args))
      rw [tokens]
      exact (readAs_construct hitems ty).isOperand
  | binary o left right ty, hnames => by
      rw [names, List.forall_mem_append] at hnames
      have hleft := (isRead left hnames.1).operand
      have hright := (isRead right hnames.2).operand
      change IsUnsettled (binary o left right ty).tokens ((binary o left right ty).reading id)
      rw [tokens, reading]
      exact hleft.binary hright o
  | unary o operand ty, hnames => by
      rw [names] at hnames
      have hoperand := (isRead operand hnames).operand
      change IsOperand (unary o operand ty).tokens fun f => .unary o (operand.reading f)
      rw [tokens]
      exact hoperand.unary o
  | conditional condition ifTrue ifFalse ty, hnames => by
      rw [names, List.forall_mem_append, List.forall_mem_append] at hnames
      have hcondition := (isRead condition hnames.1.1).operand
      have hifTrue := (isRead ifTrue hnames.1.2).operand
      have hifFalse := (isRead ifFalse hnames.2).operand
      change IsUnsettled (conditional condition ifTrue ifFalse ty).tokens
        ((conditional condition ifTrue ifFalse ty).reading id)
      rw [tokens, reading]
      exact hcondition.conditional hifTrue hifFalse
  | cast operand ty, hnames => by
      rw [names] at hnames
      have hoperand := (isRead operand hnames).operand
      change IsUnsettled (cast operand ty).tokens ((cast operand ty).reading id)
      rw [tokens, reading]
      exact (hoperand.casting ty).2
  | element array i ty, hnames => by
      rw [names] at hnames
      have harray := (isRead array hnames).operand
      change IsOperand (element array i ty).tokens fun f => array.reading fun c => f (.element c i)
      rw [tokens]
      exact harray.followed fun c frames outer => .cons rfl (.nil _)
  | lambda parameters body, hnames => by
      rw [names, List.forall_mem_append, List.forall_mem_map] at hnames
      have hbody := (isRead body hnames.2).alone
      change IsUnsettled (lambda parameters body).tokens ((lambda parameters body).reading id)
      rw [tokens, reading]
      exact hbody.lambda hnames.1

theorem isRead_all : (es : List Expr) → (∀ name ∈ namesOfAll es, Text.isName name = true) →
    List.Forall₂ IsAlone (tokensOfAll es) (readings es)
  | [], _ => by
      rw [tokensOfAll, readings]
      exact .nil
  | e :: rest, hnames => by
      rw [namesOfAll, List.forall_mem_append] at hnames
      rw [tokensOfAll, readings]
      exact .cons (isRead e hnames.1).alone (isRead_all rest hnames.2)

end

/-- **Reading the tokens.** -/
theorem read_tokens (hnames : ∀ name ∈ e.names, Text.isName name = true) :
    Reader.read e.tokens = some (e.reading id) := by
  obtain ⟨inner, c, hread, hcode⟩ := (isRead e hnames).alone
  have hreads : Reads initial e.tokens ⟨[], inner ++ [], .operand c⟩ :=
    hread [] [] (by simp [IsLoose])
  rw [Reader.read, hreads, List.append_nil, ← hcode]
  rfl

end Expr

end RowCode
