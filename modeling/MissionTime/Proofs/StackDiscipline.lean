import MissionTime.Proofs.ParserGrammar

/-! The stack of the parsing machine: its open levels are counted, and a finished operand or a waiting binary
operator has a parenthesis or the bottom directly below it.

A builder does the work of the machine with fewer promises in its types: the slot of the finished operand
may be empty, the count of open levels may be lowered too often, and the window of an operator is read
together with it. The discipline of the stack excludes both failures, so that the builder goes the way of
the machine. -/
namespace MissionTime.Formula
open Text Runs

def Frame.opens : Frame → Bool
  | .paren _ | .unary _ => true
  | .binary _ _ => false

namespace Machine

def operand? (m : Machine) : Option Node :=
  match m.phase with
  | .operator left | .binaryWindow left _ => some left
  | .operand | .unaryWindow _ _ => none

def Supported (stack : List Frame) : Prop :=
  ∀ left op below, .binary left op :: below <:+ stack → Settled below

structure WellStacked (limit : Nat) (m : Machine) : Prop where
  count : m.pending = m.stack.countP Frame.opens
  within : m.pending ≤ limit
  settled : ∀ left, m.operand? = some left → Settled m.stack
  supported : Supported m.stack

variable {limit stop pending : Nat} {span : Span} {token : Token} {frame : Frame} {stack : List Frame}
  {phase : Phase} {left : Node} {m m' : Machine}

theorem supported_cons : Supported (frame :: stack) ↔
    (∀ left op, frame = .binary left op → Settled stack) ∧ Supported stack := by
  simp only [Supported, List.suffix_cons_iff, List.cons.injEq]
  constructor
  · intro h
    exact ⟨fun left op same => h left op stack (.inl ⟨same.symm, rfl⟩),
      fun left op below suffix => h left op below (.inr suffix)⟩
  · rintro ⟨top, rest⟩ left op below (⟨same, rfl⟩ | suffix)
    · exact top left op same.symm
    · exact rest left op below suffix

theorem WellStacked.opening (h : WellStacked limit ⟨stack, pending, phase⟩) (opens : frame.opens = true)
    (room : pending < limit) : WellStacked limit ⟨frame :: stack, pending + 1, .operand⟩ := by
  refine ⟨?_, room, by simp [operand?], supported_cons.2 ⟨?_, h.supported⟩⟩
  · rw [List.countP_cons_of_pos opens, ← h.count]
  · rintro left op rfl
    cases opens

theorem WellStacked.waiting (h : WellStacked limit ⟨stack, pending, phase⟩) (settled : Settled stack)
    (left : Node) (op : Binary) : WellStacked limit ⟨.binary left op :: stack, pending, .operand⟩ := by
  refine ⟨?_, h.within, by simp [operand?], supported_cons.2 ⟨fun _ _ _ => settled, h.supported⟩⟩
  rw [List.countP_cons_of_neg (by simp [Frame.opens]), ← h.count]

theorem wellStacked_reduce {node : Node} (run : reduce limit span stack pending node = .ok m')
    (count : pending = stack.countP Frame.opens) (within : pending ≤ limit) (supported : Supported stack) :
    m'.WellStacked limit := by
  fun_induction reduce limit span stack pending node with
  | case1 => cases run
  | case2 pending node op stack _ ih =>
    rw [List.countP_cons_of_pos rfl] at count
    exact ih run (by omega) (by omega) (supported_cons.1 supported).2
  | case3 => cases run
  | case4 pending node left op stack _ ih =>
    rw [List.countP_cons_of_neg (by simp [Frame.opens])] at count
    exact ih run count within (supported_cons.1 supported).2
  | case5 stack pending node notUnary notBinary =>
    cases run
    refine ⟨count, within, fun _ _ => ?_, supported⟩
    cases stack with
    | nil => exact .nil
    | cons frame stack =>
      cases frame with
      | paren => exact .paren
      | unary => exact (notUnary _ _ rfl).elim
      | binary => exact (notBinary _ _ _ rfl).elim

theorem WellStacked.moves (h : m.WellStacked limit) (moved : Moves limit token m m') :
    m'.WellStacked limit := by
  cases moved with
  | negation _ room => exact h.opening rfl room
  | opening _ room => exact h.opening rfl room
  | unaryWindow _ room => exact h.opening rfl room
  | modality => exact ⟨h.count, h.within, by simp [operand?], h.supported⟩
  | name _ _ _ run => exact wellStacked_reduce run h.count h.within h.supported
  | and => exact h.waiting (h.settled _ rfl) _ _
  | or => exact h.waiting (h.settled _ rfl) _ _
  | binaryWindow => exact h.waiting (h.settled _ rfl) _ _
  | linkage => exact ⟨h.count, h.within, fun _ _ => h.settled _ rfl, h.supported⟩
  | @closing start stack pending left _ _ run =>
    have count : pending = (Frame.paren start :: stack).countP Frame.opens := h.count
    have within : pending ≤ limit := h.within
    rw [List.countP_cons_of_pos rfl] at count
    exact wellStacked_reduce run (by omega) (by omega) (supported_cons.1 h.supported).2

theorem wellStacked_of_consume {tokens : List Token} (run : consume tokens {} limit = .ok m) :
    m.WellStacked limit := by
  have start : WellStacked limit {} := ⟨rfl, Nat.zero_le _, by simp [operand?], by simp [Supported]⟩
  exact consume_keeps (P := fun _ m => m.WellStacked limit) start
    (fun _ _ _ _ _ moved stacked => stacked.moves moved) run

theorem WellStacked.finish (h : m.WellStacked limit) {f : Formula} (run : m.finish stop = .ok f) :
    m.stack = [] := by
  obtain ⟨stack, pending, phase⟩ := m
  cases phase with
  | operator node =>
    have settled : Settled stack := h.settled node rfl
    cases settled with
    | nil => rfl
    | paren => cases run
  | _ => cases run

end Machine

/-- What has been read so far: the waiting operators, the number of open levels and the finished operand. -/
structure Builder where
  stack : List Frame := []
  pending : Nat := 0
  operand : Option Node := none

namespace Builder

inductive Failure
  | refused (located : Located)
  | underflow
  | missingOperand

def lower : Nat → Except Failure Nat
  | 0 => .error .underflow
  | pending + 1 => .ok pending

def tooDeep {α : Type} (limit : Nat) (span : Span) : Except Failure α :=
  .error (.refused ⟨.nestingTooDeep limit, span⟩)

def enter (limit : Nat) (span : Span) (frame : Frame) (b : Builder) : Except Failure Builder :=
  if limit ≤ b.pending then tooDeep limit span
  else .ok { b with stack := frame :: b.stack, pending := b.pending + 1 }

def await (op : Binary) (b : Builder) : Except Failure Builder :=
  match b.operand with
  | none => .error .missingOperand
  | some left => .ok { b with stack := .binary left op :: b.stack, operand := none }

def reduce (limit : Nat) (span : Span) : List Frame → Nat → Node → Except Failure Builder
  | .unary op :: stack, pending, node => do
    let pending ← lower pending
    if limit < (node.wrap op).nesting then tooDeep limit span
    else reduce limit span stack pending (node.wrap op)
  | .binary left op :: stack, pending, node =>
    if limit < (left.join op node).nesting then tooDeep limit span
    else reduce limit span stack pending (left.join op node)
  | stack, pending, node => .ok ⟨stack, pending, some node⟩

def close (limit : Nat) (token : Token) (b : Builder) : Except Failure Builder :=
  match b.stack with
  | .paren _ :: stack => do
    let pending ← lower b.pending
    match b.operand with
    | none => .error .missingOperand
    | some inner => reduce limit token.headSpan stack pending inner
  | _ => .error (.refused (trailing token))

def withWindow (letter : Char) (stop : Nat) (rest : List Token) (act : Interval → Except Failure Builder) :
    Except Failure (Builder × List Token) :=
  match rest with
  | [] => .error (.refused ⟨.missingWindow letter, .point stop⟩)
  | token :: rest => do
    let window ← (windowOf letter token).mapError .refused
    (·, rest) <$> act window

def pushOperand (limit stop : Nat) (b : Builder) (token : Token) (rest : List Token) :
    Except Failure (Builder × List Token) :=
  match token.kind with
  | .bang => (·, rest) <$> b.enter limit token.headSpan (.unary .not)
  | .leftParen => (·, rest) <$> b.enter limit token.headSpan (.paren token.start)
  | .word =>
    match token.text with
    | ['F'] => withWindow 'F' stop rest fun w => b.enter limit token.headSpan (.unary (.eventually w))
    | ['G'] => withWindow 'G' stop rest fun w => b.enter limit token.headSpan (.unary (.always w))
    | name => (·, rest) <$> reduce limit token.headSpan b.stack b.pending (.atom (String.ofList name))
  | _ => .error (.refused ⟨.unexpectedChar token.head, token.headSpan⟩)

def pushLinkage (stop : Nat) (b : Builder) (op : Linkage) (token : Token) (rest : List Token) :
    Except Failure (Builder × List Token) :=
  match token.tail with
  | [] => withWindow op.letter stop rest fun w => b.await (op.withWindow w)
  | c :: _ => .error (.refused ⟨.missingWindow op.letter, .ofChar (token.start + token.head.utf8Size) c⟩)

def pushOperator (limit stop : Nat) (b : Builder) (token : Token) (rest : List Token) :
    Except Failure (Builder × List Token) :=
  match token.kind with
  | .amp => (·, rest) <$> b.await .and
  | .bar => (·, rest) <$> b.await .or
  | .rightParen => (·, rest) <$> b.close limit token
  | .word =>
    match token.head with
    | 'U' => b.pushLinkage stop .until token rest
    | 'R' => b.pushLinkage stop .release token rest
    | _ => .error (.refused (trailing token))
  | _ => .error (.refused (trailing token))

/-- Takes a token, and the window behind it where one belongs to it; `rest` are the tokens that follow and
`stop` is the end of the text. -/
def push (limit stop : Nat) (b : Builder) (token : Token) (rest : List Token) :
    Except Failure (Builder × List Token) :=
  if b.operand.isSome then b.pushOperator limit stop token rest else b.pushOperand limit stop token rest

def finish (stop : Nat) (b : Builder) : Except Failure Formula :=
  match b.operand with
  | none => .error (.refused ⟨.unexpectedEnd, .point stop⟩)
  | some node =>
    match b.stack with
    | .paren start :: _ => .error (.refused ⟨.unclosedParen, ⟨start, start + 1⟩⟩)
    | _ => .ok node.formula

/-- One push after the other, all of them successful. -/
inductive Pushes (limit stop : Nat) : Builder → List Token → Builder → List Token → Prop
  | refl {b tokens} : Pushes limit stop b tokens b tokens
  | step {b token rest b' rest' b'' rest''} (first : b.push limit stop token rest = .ok (b', rest'))
    (later : Pushes limit stop b' rest' b'' rest'') : Pushes limit stop b (token :: rest) b'' rest''

def machine (b : Builder) : Machine := ⟨b.stack, b.pending, b.operand.elim .operand .operator⟩

variable {limit stop : Nat} {span : Span} {token : Token} {rest tokens : List Token} {b b' : Builder}

inductive Agrees : Except Failure Builder → Except Located Machine → Prop
  | ok {b : Builder} : Agrees (.ok b) (.ok b.machine)
  | refused {located : Located} : Agrees (.error (.refused located)) (.error located)

theorem agrees_enter {frame : Frame} (idle : b.operand = none) (phase : Phase) :
    Agrees (b.enter limit span frame) (Machine.enter limit span frame ⟨b.stack, b.pending, phase⟩) := by
  obtain ⟨stack, pending, operand⟩ := b
  obtain rfl : operand = none := idle
  unfold enter Machine.enter
  dsimp only
  split_ifs
  · exact .refused
  · exact .ok

theorem agrees_await {left : Node} (held : b.operand = some left) (op : Binary) (phase : Phase) :
    Agrees (b.await op) (.ok (Machine.await left op ⟨b.stack, b.pending, phase⟩)) := by
  rw [await, held]
  exact .ok

theorem agrees_reduce {stack : List Frame} {pending : Nat} {node : Node}
    (counted : stack.countP Frame.opens ≤ pending) :
    Agrees (reduce limit span stack pending node) (Machine.reduce limit span stack pending node) := by
  induction stack generalizing pending node with
  | nil => exact .ok
  | cons frame stack ih =>
    cases frame with
    | paren start => exact .ok
    | unary op =>
      -- the operator itself is among the counted levels, so the count can be lowered
      rw [List.countP_cons_of_pos rfl] at counted
      obtain ⟨pending, rfl⟩ : ∃ n, pending = n + 1 := ⟨pending - 1, by omega⟩
      rw [reduce, Machine.reduce]
      simp only [lower, Nat.add_sub_cancel]
      by_cases deep : limit < (node.wrap op).nesting
      · simp only [if_pos deep]
        exact .refused
      · simp only [if_neg deep]
        exact ih (by omega)
    | binary left op =>
      rw [List.countP_cons_of_neg (by simp [Frame.opens])] at counted
      rw [reduce, Machine.reduce]
      split_ifs
      · exact .refused
      · exact ih counted

theorem agrees_close {left : Node} (counted : b.stack.countP Frame.opens ≤ b.pending)
    (held : b.operand = some left) (kind : token.kind = .rightParen) :
    Agrees (b.close limit token) (b.machine.readOperator limit left token) := by
  obtain ⟨stack, pending, operand⟩ := b
  obtain rfl : operand = some left := held
  simp only [close, machine, Machine.readOperator, kind]
  cases stack with
  | nil => exact .refused
  | cons frame stack =>
    cases frame with
    | paren start =>
      have counted : (Frame.paren start :: stack).countP Frame.opens ≤ pending := counted
      rw [List.countP_cons_of_pos rfl] at counted
      obtain ⟨pending, rfl⟩ : ∃ n, pending = n + 1 := ⟨pending - 1, by omega⟩
      exact agrees_reduce (Nat.le_of_succ_le_succ counted)
    | unary => exact .refused
    | binary => exact .refused

/-- A push goes the way of the machine: the machine takes the same tokens to the same place, or refuses the
text for the same fault. -/
inductive Follows (limit stop : Nat) (m : Machine) (tokens : List Token) :
    Except Failure (Builder × List Token) → Prop
  | ok {b : Builder} {taken rest} (split : tokens = taken ++ rest)
    (run : Machine.consume taken m limit = .ok b.machine) : Follows limit stop m tokens (.ok (b, rest))
  | refused {located} (failed : (Machine.consume tokens m limit >>= Machine.finish stop) = .error located) :
    Follows limit stop m tokens (.error (.refused located))

theorem follows_refused {m : Machine} {located : Located} (failed : m.step limit token = .error located) :
    Follows limit stop m (token :: rest) (.error (.refused located)) := by
  refine .refused ?_
  rw [Machine.consume, List.foldlM_cons, failed]
  rfl

theorem follows_step {m : Machine} {x : Except Failure Builder} {result : Except Located Machine}
    (agrees : Agrees x result) (same : m.step limit token = result) :
    Follows limit stop m (token :: rest) ((·, rest) <$> x) := by
  cases agrees with
  | ok =>
    have split : token :: rest = [token] ++ rest := rfl
    exact .ok split ((Machine.consume_one ..).trans same)
  | refused => exact follows_refused same

theorem follows_withWindow {m : Machine} (next : Machine) {letter : Char}
    {act : Interval → Except Failure Builder} {result : Interval → Except Located Machine}
    (first : m.step limit token = .ok next)
    (missing : next.finish stop = .error ⟨.missingWindow letter, .point stop⟩)
    (second : ∀ window, next.step limit window = windowOf letter window >>= result)
    (agrees : ∀ w, Agrees (act w) (result w)) :
    Follows limit stop m (token :: rest) (withWindow letter stop rest act) := by
  cases rest with
  | nil =>
    refine .refused ?_
    rw [Machine.consume_one, first]
    exact missing
  | cons window rest =>
    have run : Follows limit stop next (window :: rest) (withWindow letter stop (window :: rest) act) := by
      have step := second window
      rw [withWindow]
      cases read : windowOf letter window with
      | error located =>
        rw [read] at step
        exact follows_refused step
      | ok w =>
        rw [read] at step
        exact follows_step (agrees w) step
    generalize withWindow letter stop (window :: rest) act = pushed at run
    cases run with
    | @ok b taken rest' split run =>
      have split : token :: window :: rest = (token :: taken) ++ rest' := congrArg (token :: ·) split
      exact .ok split (by rw [Machine.consume_cons first, run])
    | refused failed =>
      refine .refused ?_
      rw [Machine.consume_cons first, failed]

theorem follows_pushOperand (counted : b.stack.countP Frame.opens ≤ b.pending) (idle : b.operand = none) :
    Follows limit stop b.machine (token :: rest) (b.pushOperand limit stop token rest) := by
  have phase : b.machine = ⟨b.stack, b.pending, .operand⟩ := by simp [machine, idle]
  have modality (op : Modality) (kind : token.kind = .word) (text : token.text = [op.letter]) :
      Follows limit stop b.machine (token :: rest)
        (withWindow op.letter stop rest fun w =>
          b.enter limit token.headSpan (.unary (op.withWindow w))) := by
    refine follows_withWindow ⟨b.stack, b.pending, .unaryWindow op token.headSpan⟩ ?_ rfl (fun _ => rfl)
      fun w => agrees_enter idle _
    rw [phase]
    cases op <;> simp [Machine.step, Machine.readOperand, kind, text, Modality.letter]
  unfold pushOperand
  split
  · rename_i kind
    refine follows_step (agrees_enter idle .operand) ?_
    simp only [phase, Machine.step, Machine.readOperand, kind]
  · rename_i kind
    refine follows_step (agrees_enter idle .operand) ?_
    simp only [phase, Machine.step, Machine.readOperand, kind]
  · rename_i kind
    split
    · exact modality .eventually kind ‹_›
    · exact modality .always kind ‹_›
    · refine follows_step (agrees_reduce counted) ?_
      simp only [phase, Machine.step, Machine.readOperand, kind]
  · refine follows_refused ?_
    simp only [phase, Machine.step, Machine.readOperand]

theorem follows_pushOperator {left : Node} (counted : b.stack.countP Frame.opens ≤ b.pending)
    (held : b.operand = some left) :
    Follows limit stop b.machine (token :: rest) (b.pushOperator limit stop token rest) := by
  have phase : b.machine = ⟨b.stack, b.pending, .operator left⟩ := by simp [machine, held]
  have linkage (op : Linkage) (kind : token.kind = .word) (head : token.head = op.letter) :
      Follows limit stop b.machine (token :: rest) (b.pushLinkage stop op token rest) := by
    have read : b.machine.step limit token = b.machine.readLinkage left op token := by
      rw [phase]
      cases op <;> simp [Machine.step, Machine.readOperator, kind, head, Linkage.letter]
    unfold pushLinkage
    unfold Machine.readLinkage at read
    cases tail : token.tail with
    | nil =>
      rw [tail] at read
      exact follows_withWindow ⟨b.stack, b.pending, .binaryWindow left op⟩ read rfl (fun _ => rfl)
        fun w => agrees_await held _ _
    | cons c _ =>
      rw [tail] at read
      exact follows_refused read
  unfold pushOperator
  split
  · rename_i kind
    refine follows_step (agrees_await held .and (.operator left)) ?_
    simp only [phase, Machine.step, Machine.readOperator, kind]
  · rename_i kind
    refine follows_step (agrees_await held .or (.operator left)) ?_
    simp only [phase, Machine.step, Machine.readOperator, kind]
  · rename_i kind
    refine follows_step (agrees_close counted held kind) ?_
    simp only [phase, Machine.step]
  · rename_i kind
    split
    · exact linkage .until kind ‹_›
    · exact linkage .release kind ‹_›
    · refine follows_refused ?_
      simp only [phase, Machine.step, Machine.readOperator, kind]
  · refine follows_refused ?_
    simp only [phase, Machine.step, Machine.readOperator]

theorem follows_push {taken : List Token} (run : Machine.consume taken {} limit = .ok b.machine) (stop : Nat)
    (token : Token) (rest : List Token) :
    Follows limit stop b.machine (token :: rest) (b.push limit stop token rest) := by
  have counted : b.stack.countP Frame.opens ≤ b.pending := (Machine.wellStacked_of_consume run).count.ge
  unfold push
  split_ifs with held
  · obtain ⟨left, held⟩ := Option.isSome_iff_exists.1 held
    exact follows_pushOperator counted held
  · exact follows_pushOperand counted (Option.not_isSome_iff_eq_none.1 held)

theorem finish_eq (stop : Nat) (b : Builder) :
    b.finish stop = (b.machine.finish stop).mapError .refused := by
  obtain ⟨stack, pending, operand⟩ := b
  cases operand with
  | none => rfl
  | some node =>
    cases stack with
    | nil => rfl
    | cons frame stack => cases frame <;> rfl

theorem consume_of_pushes {taken : List Token} (run : Machine.consume taken {} limit = .ok b.machine)
    (pushed : Pushes limit stop b tokens b' rest) :
    ∃ taken', tokens = taken' ++ rest ∧ Machine.consume (taken ++ taken') {} limit = .ok b'.machine := by
  induction pushed generalizing taken with
  | refl => exact ⟨[], rfl, by rw [List.append_nil, run]⟩
  | @step b token rest b' rest' b'' rest'' first later ih =>
    -- the discipline is not carried along: it holds behind every run of the machine from the start
    have follows := follows_push run stop token rest
    rw [first] at follows
    cases follows with
    | @ok _ front _ split next =>
      have both : Machine.consume (taken ++ front) {} limit = .ok b'.machine := by
        rw [Machine.consume_append run, next]
      obtain ⟨taken', split', last⟩ := ih both
      refine ⟨front ++ taken', by rw [split, split', List.append_assoc], ?_⟩
      rw [← List.append_assoc, last]

structure InStep (limit stop : Nat) (tokens : List Token) (b : Builder) (rest : List Token) : Prop where
  run : ∃ taken, tokens = taken ++ rest ∧ Machine.consume taken {} limit = .ok b.machine
  refused : ∀ token behind failure, rest = token :: behind → b.push limit stop token behind = .error failure →
    ∃ located, failure = .refused located ∧ readTokens limit stop tokens = .error located
  finished : rest = [] → b.finish stop = (readTokens limit stop tokens).mapError .refused

theorem inStep_of_pushes (pushed : Pushes limit stop {} tokens b rest) : InStep limit stop tokens b rest := by
  have start : Machine.consume [] {} limit = .ok (machine {}) := rfl
  obtain ⟨taken, split, run⟩ := consume_of_pushes start pushed
  rw [List.nil_append] at run
  refine ⟨⟨taken, split, run⟩, ?_, ?_⟩
  · rintro token behind failure rfl failed
    have follows := follows_push run stop token behind
    rw [failed] at follows
    cases follows with
    | @refused located last =>
      refine ⟨located, rfl, ?_⟩
      rw [readTokens, ← Machine.consume, split, Machine.consume_append run]
      exact last
  · rintro rfl
    rw [List.append_nil] at split
    rw [finish_eq, readTokens, ← Machine.consume, split, run]
    rfl

/-- In every run of the machine, and after every sequence of successful pushes, the open levels are counted
and within the limit, a finished operand stands directly above a parenthesis or at the bottom, and so does
every binary operator. Hence the builder never lowers a count of zero and never misses an operand, a
formula is returned only when nothing waits on the stack, and the builder is in step with the machine. -/
theorem stack_discipline (limit stop : Nat) (tokens : List Token) :
    (∀ m, Machine.consume tokens {} limit = .ok m →
      m.WellStacked limit ∧ ∀ f, m.finish stop = .ok f → m.stack = []) ∧
    ∀ b rest, Pushes limit stop {} tokens b rest →
      b.pending = b.stack.countP Frame.opens ∧ b.pending ≤ limit ∧
      (b.operand.isSome = true → Machine.Settled b.stack) ∧
      (∀ left op below, .binary left op :: below <:+ b.stack → Machine.Settled below) ∧
      (∀ token behind, b.push limit stop token behind ≠ .error .underflow ∧
        b.push limit stop token behind ≠ .error .missingOperand) ∧
      (∀ f, b.finish stop = .ok f → b.stack = []) ∧
      InStep limit stop tokens b rest := by
  refine ⟨fun m run => ?_, fun b rest pushed => ?_⟩
  · have stacked := Machine.wellStacked_of_consume run
    exact ⟨stacked, fun f finished => stacked.finish finished⟩
  have inStep := inStep_of_pushes pushed
  obtain ⟨taken, -, run⟩ := inStep.run
  have stacked := Machine.wellStacked_of_consume run
  refine ⟨stacked.count, stacked.within, fun held => ?_, stacked.supported, fun token behind => ?_,
    fun f finished => ?_, inStep⟩
  · obtain ⟨left, held⟩ := Option.isSome_iff_exists.1 held
    exact stacked.settled left (by simp [machine, Machine.operand?, held])
  · have follows := follows_push run stop token behind
    generalize b.push limit stop token behind = result at follows
    cases follows <;> simp
  · rw [finish_eq] at finished
    cases last : b.machine.finish stop with
    | error located =>
      rw [last] at finished
      cases finished
    | ok g => exact stacked.finish last

theorem stack_discipline_group :
    ∃ b, Pushes 2 0 {}
        ([(.word, ['a']), (.amp, ['&']), (.leftParen, ['(']), (.bang, ['!']), (.word, ['b'])].map tokenOf) b
        [tokenOf (.word, ['b'])] ∧
      b.stack.length = 3 ∧ 2 = b.stack.countP Frame.opens ∧
      b.push 2 0 (tokenOf (.word, ['b'])) [] ≠ .error .underflow := by
  let b : Builder := ⟨[.unary .not, .paren 0, .binary (.atom (String.ofList ['a'])) .and], 2, none⟩
  have pushed : Pushes 2 0 {}
      ([(.word, ['a']), (.amp, ['&']), (.leftParen, ['(']), (.bang, ['!']), (.word, ['b'])].map tokenOf) b
      [tokenOf (.word, ['b'])] := .step rfl (.step rfl (.step rfl (.step rfl .refl)))
  have discipline := (stack_discipline 2 0 _).2 b _ pushed
  exact ⟨b, pushed, rfl, discipline.1, (discipline.2.2.2.2.1 _ _).1⟩

end Builder
end MissionTime.Formula
