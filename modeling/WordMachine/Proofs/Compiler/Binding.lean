import WordMachine.Proofs.Compiler.Arrangement
import WordMachine.Proofs.Compiler.Accepted

/-!
# Where jumps go

The code of a function is nested as its statements are: the lines of a loop stand around those of its
body. So BREAK and CONTINUE go to the labels of the innermost loop whose body they are in, however
loops and conditions are nested. All jumps of a function stay in it, and no other line of a program
refers to its labels but calls of it.
-/

namespace WordMachine.Compiler

open Assembly Source

/-! ### Ways into statements -/

/-- From statements, or from a statement, to a part of it. -/
inductive Turn
  /-- to the first of the statements -/
  | first
  /-- to the statements after the first -/
  | rest
  | thenBranch
  | elseBranch
  /-- to the body of a loop -/
  | inside
deriving DecidableEq

/-- Turns taken one after another. -/
abbrev Way := List Turn

def Part.child? : Part → Turn → Option Part
  | .block (s :: _), .first => some (.statement s)
  | .block (_ :: ss), .rest => some (.block ss)
  | .statement (.ifElse _ ss _), .thenBranch => some (.block ss)
  | .statement (.ifElse _ _ ts), .elseBranch => some (.block ts)
  | .statement (.whileDo _ ss), .inside => some (.block ss)
  | .statement (.forDo _ _ _ _ ss), .inside => some (.block ss)
  | _, _ => none

def Part.at? (part : Part) : Way → Option Part
  | [] => some part
  | t :: w => (part.child? t).bind fun child => child.at? w

/-- The way to the innermost loop whose body a way leads into. -/
def Way.loop? : Way → Option Way
  | [] => none
  | t :: w =>
    match Way.loop? w with
    | some v => some (t :: v)
    | none => if t = .inside then some [] else none

/-! ### Lines of nested parts -/

/-- The lines of the parts that ways lead to, and the labels of the loops among them. -/
structure Layout where
  lines : Way → Code
  labels : Way → Loop

/-- The labels of the innermost loop around a part. Around the whole there may be another one. -/
def Layout.target? (L : Layout) (around : Option Loop) (w : Way) : Option Loop :=
  match Way.loop? w with
  | some v => some (L.labels v)
  | none => around

/-- The code is generated for the part. -/
def Emitted (part : Part) (code : Code) : Prop := ∃ l f n n₁, Emits l f part n code n₁

/-- The lines of a part are those of the parts in it, with the lines around them that belong to the
part itself. A loop begins or goes on at its own labels. BREAK and CONTINUE jump to those of the
innermost loop. -/
inductive Layout.Holds (L : Layout) (around : Option Loop) (w : Way) : Part → Prop
  | leaf {part} : (∀ t, part.child? t = none) → part ≠ .statement .breakLoop →
      part ≠ .statement .continueLoop → Emitted part (L.lines w) → L.Holds around w part
  | cons {s ss} : L.lines w = L.lines (w ++ [.first]) ++ L.lines (w ++ [.rest]) →
      L.Holds around w (.block (s :: ss))
  | ifOnly {e ss test} {l : Label} : Emitted (.value e (some ifCondition)) test →
      L.lines w = test ++ [Code.test ifCondition, Code.jiz l] ++ L.lines (w ++ [.thenBranch]) ++
        [Code.label l] →
      L.Holds around w (.statement (.ifElse e ss []))
  | ifElse {e ss t ts test} {l l' : Label} : Emitted (.value e (some ifCondition)) test →
      L.lines w = test ++ [Code.test ifCondition, Code.jiz l] ++ L.lines (w ++ [.thenBranch]) ++
        [Code.jmp l', Code.label l] ++ L.lines (w ++ [.elseBranch]) ++ [Code.label l'] →
      L.Holds around w (.statement (.ifElse e ss (t :: ts)))
  | whileDo {e ss test} : Emitted (.value e (some whileCondition)) test →
      L.lines w = [Code.label (L.labels w).next] ++ test ++
        [Code.test whileCondition, Code.jiz (L.labels w).exit] ++ L.lines (w ++ [.inside]) ++
        [Code.jmp (L.labels w).next, Code.label (L.labels w).exit] →
      L.Holds around w (.statement (.whileDo e ss))
  | forDo {counter start condition step ss place first test last} {l : Label} :
      Emitted (.place counter (some countAddress)) place →
      Emitted (.value start (some countValue)) first →
      Emitted (.value condition (some countValue)) test →
      Emitted (.value step (some countValue)) last →
      L.lines w = place ++ [Code.push countAddress] ++ first ++
        [Code.load countAddress .stack, Code.store countAddress countValue] ++
        [Code.label l] ++ test ++ [Code.test countValue, Code.jiz (L.labels w).exit] ++
        L.lines (w ++ [.inside]) ++
        [Code.label (L.labels w).next] ++ last ++
        [Code.load countAddress .stack, Code.load countScratch countAddress,
          Code.add countScratch countValue, Code.store countAddress countScratch, Code.jmp l] ++
        [Code.label (L.labels w).exit, Code.pop .result] →
      L.Holds around w (.statement (.forDo counter start condition step ss))
  | breakLoop {i} : L.target? around w = some i → L.lines w = [Code.jmp i.exit] →
      L.Holds around w (.statement .breakLoop)
  | continueLoop {i} : L.target? around w = some i → L.lines w = [Code.jmp i.next] →
      L.Holds around w (.statement .continueLoop)

/-- No lines, and labels that no loop has. -/
def Layout.empty : Layout := ⟨fun _ => [], fun _ => ⟨.programEnd, .programEnd⟩⟩

/-- A part with this code and these labels, of parts that are laid out themselves. -/
def Layout.node (code : Code) (labels : Loop) (children : Turn → Layout) : Layout where
  lines
    | [] => code
    | t :: w => (children t).lines w
  labels
    | [] => labels
    | t :: w => (children t).labels w

def Turn.around (labels : Loop) (around : Option Loop) (t : Turn) : Option Loop :=
  if t = .inside then some labels else around

def Layout.choose (t : Turn) (first second : Layout) (t' : Turn) : Layout :=
  if t' = t then first else second

section

variable {code : Code} {labels : Loop} {children : Turn → Layout} {around : Option Loop} {t : Turn}
  {w : Way} {part : Part}

theorem target?_node : (Layout.node code labels children).target? around (t :: w) =
    (children t).target? (t.around labels around) w := by
  rw [Layout.target?, Layout.target?, Way.loop?, Turn.around]
  cases Way.loop? w with
  | some v => rfl
  | none => by_cases ht : t = .inside <;> simp [ht, Layout.node]

theorem Layout.Holds.node (h : (children t).Holds (t.around labels around) w part) :
    (Layout.node code labels children).Holds around (t :: w) part := by
  cases h with
  | leaf hc hb hn he => exact .leaf hc hb hn he
  | cons hl => exact .cons hl
  | ifOnly he hl => exact .ifOnly he hl
  | ifElse he hl => exact .ifElse he hl
  | whileDo he hl => exact .whileDo he hl
  | forDo hp hs hc ht hl => exact .forDo hp hs hc ht hl
  | breakLoop ht hl => exact .breakLoop (target?_node.trans ht) hl
  | continueLoop ht hl => exact .continueLoop (target?_node.trans ht) hl

/-- The code of a part can be divided into that of the parts in it. -/
def Laid (around : Option Loop) (part : Part) (code : Code) : Prop :=
  ∃ L : Layout, L.lines [] = code ∧ ∀ w p, part.at? w = some p → L.Holds around w p

theorem laid_node (labels : Loop) (children : Turn → Layout)
    (hroot : (Layout.node code labels children).Holds around [] part)
    (hchildren : ∀ t child, part.child? t = some child →
      ∀ w p, child.at? w = some p → (children t).Holds (t.around labels around) w p) :
    Laid around part code := by
  refine ⟨Layout.node code labels children, rfl, fun w p hp => ?_⟩
  cases w with
  | nil =>
    cases hp
    exact hroot
  | cons t w =>
    obtain ⟨child, hc, hp⟩ := Option.bind_eq_some_iff.1 hp
    exact (hchildren t child hc w p hp).node

theorem laid_leaf (he : Emitted part code) (hc : ∀ t, part.child? t = none)
    (hb : part ≠ .statement .breakLoop) (hn : part ≠ .statement .continueLoop) :
    Laid around part code := by
  refine laid_node (Layout.empty.labels []) (fun _ => .empty)
    (.leaf hc hb hn he) fun t child h => ?_
  rw [hc] at h
  cases h

end

/-- All emitted code is laid out, with the loop around it as the innermost one at first. The layout of
a part is put together from those of the parts in it. -/
theorem laid_of_emits {l : Option Loop} {f : Frame} {part : Part} {n n₁ : Nat} {code : Code}
    (hE : Emits l f part n code n₁) : Laid l part code := by
  have hemitted : Emitted part code := ⟨l, f, n, n₁, hE⟩
  induction hE with
  | int | unusedName | name | unusedBinary | binary | addressOf | negate | bitNot | unusedNot
  | logicalNot | dereference | call | noArguments | argument | unusedPlace | namePlace | pointer
  | retNothing | ret | assign | exec | nil =>
    exact laid_leaf hemitted (by intro t; cases t <;> rfl) (by simp) (by simp)
  | @ifOnly l f n n₁ n₂ e ss test first he hs ihe ihs =>
    obtain ⟨L, rfl, hL⟩ := ihs ⟨_, _, _, _, hs⟩
    -- a way leads to the branch that is left out as well, which has no lines
    have hempty : Laid l (.block []) [] :=
      laid_leaf ⟨l, f, n₂, n₂, .nil⟩ (by intro t; cases t <;> rfl) (by simp) (by simp)
    obtain ⟨L', _, hL'⟩ := hempty
    refine laid_node (L.labels []) (.choose .thenBranch L L')
      (.ifOnly ⟨l, f, _, _, he⟩ rfl) fun t child hc => ?_
    cases t <;> cases hc
    · exact hL
    · exact hL'
  | @ifElse l f n n₁ n₂ n₃ e ss t ts test first second he hs ht ihe ihs iht =>
    obtain ⟨L, rfl, hL⟩ := ihs ⟨_, _, _, _, hs⟩
    obtain ⟨L', rfl, hL'⟩ := iht ⟨_, _, _, _, ht⟩
    refine laid_node (L.labels []) (.choose .thenBranch L L')
      (.ifElse ⟨l, f, _, _, he⟩ rfl) fun t child hc => ?_
    cases t <;> cases hc
    · exact hL
    · exact hL'
  | @whileDo l f n n₁ n₂ e ss test inner he hs ihe ihs =>
    obtain ⟨L, rfl, hL⟩ := ihs ⟨_, _, _, _, hs⟩
    refine laid_node ⟨.loop n, .endLoop n⟩ (fun _ => L)
      (.whileDo ⟨l, f, _, _, he⟩ rfl) fun t child hc => ?_
    cases t <;> cases hc
    exact hL
  | @forDo l f n n₁ n₂ n₃ n₄ n₅ _ _ _ _ _ _ _ _ _ _ hp hs hc hb ht ihp ihs ihc ihb iht =>
    obtain ⟨L, rfl, hL⟩ := ihb ⟨_, _, _, _, hb⟩
    refine laid_node ⟨.nextCount n, .endCount n⟩ (fun _ => L)
      (.forDo ⟨l, f, _, _, hp⟩ ⟨l, _, _, _, hs⟩ ⟨l, _, _, _, hc⟩ ⟨l, _, _, _, ht⟩ rfl)
      fun t child hc => ?_
    cases t <;> cases hc
    exact hL
  | @breakLoop i f n =>
    refine laid_node i (fun _ => .empty) (.breakLoop rfl rfl) fun t child hc => ?_
    cases t <;> cases hc
  | @continueLoop i f n =>
    refine laid_node i (fun _ => .empty) (.continueLoop rfl rfl) fun t child hc => ?_
    cases t <;> cases hc
  | @cons l f n n₁ n₂ s ss first rest hs hss ihs ihss =>
    obtain ⟨L, rfl, hL⟩ := ihs ⟨_, _, _, _, hs⟩
    obtain ⟨L', rfl, hL'⟩ := ihss ⟨_, _, _, _, hss⟩
    refine laid_node (L.labels []) (.choose .first L L') (.cons rfl)
      fun t child hc => ?_
    cases t <;> cases hc
    · exact hL
    · exact hL'

/-! ### Transfers of control -/

theorem Allowed.transfer {s : Setting} {shapeOf : Nat → List Content} {σ σ₁ : Shape}
    {x : Instruction Value} (h : Allowed s shapeOf σ (.instruction x) σ₁)
    (hx : .instruction ∈ x.written) : Line.instruction x = Code.ret ∨
      (∃ g, Line.instruction x = Code.call (.function g)) ∨
      ∃ l : Label, l.id?.isSome ∧ jumpTarget? (.instruction x) = some l.text := by
  generalize hline : Line.instruction x = line at h
  cases h with
  | blank | label | entry => cases hline
  | number _ hi | top _ hi | address _ hi | loadSlot _ hi =>
    cases hline
    exact absurd (List.mem_singleton.1 hx).symm hi
  | pop _ hi | popSlot _ hi =>
    cases hline
    obtain h | h := List.mem_cons.1 hx
    · cases h
    · exact absurd (List.mem_singleton.1 h).symm hi
  | reserve | release | push | pushSlot =>
    cases hline
    cases List.mem_singleton.1 hx
  | store =>
    cases hline
    cases hx
  | call =>
    exact .inr (.inl ⟨_, rfl⟩)
  | jump hi =>
    exact .inr (.inr ⟨_, by rw [hi]; rfl, rfl⟩)
  | branch hb hi =>
    exact .inr (.inr ⟨_, by rw [hi]; rfl, by cases hb <;> rfl⟩)
  | ret => exact .inl rfl
  | quiet hq | keep hq =>
    cases hline
    exact absurd hx hq.instruction

theorem Closed.transfer {s : Setting} {shapeOf : Nat → List Content} {code : Code}
    (h : Closed s shapeOf code) {x : Instruction Value} (hm : Line.instruction x ∈ code)
    (hx : .instruction ∈ x.written) : Line.instruction x = Code.ret ∨
      (∃ g, Line.instruction x = Code.call (.function g)) ∨
      ∃ l : Label, l.id?.isSome ∧ jumpTarget? (.instruction x) = some l.text := by
  obtain ⟨_, ht⟩ := h.typed
  obtain ⟨shapes, _, hs⟩ := ht.shapes
  obtain ⟨i, hi⟩ := List.getElem?_of_mem hm
  exact (hs i _ hi).transfer hx

/-! ### Functions -/

section

variable {f : Function} {n n₁ : Nat} {code : Code}

theorem times_pos {l : Label} (h : Code.label l ∈ code) : 0 < times l code :=
  List.count_pos_iff.2 (mem_declarations_iff.2 h)

theorem times_le_one_of_emitsFunction (h : EmitsFunction f n code n₁) (l : Label) :
    times l code ≤ 1 := by
  obtain ⟨_, ht⟩ := times_of_emitsFunction l h
  have hw := within_le_one l.id? n n₁
  cases hid : l.id? with
  | none =>
    have hc : [Label.function f.signature].count l ≤ 1 := List.count_le_length
    rw [hid] at ht
    exact Nat.le_trans ht hc
  | some i =>
    have hc : [Label.function f.signature].count l = 0 := by
      refine List.count_eq_zero.2 fun hm => ?_
      rw [List.mem_singleton.1 hm] at hid
      cases hid
    omega

/-- The only label without a number in the code of a function is its own. -/
theorem eq_of_label_mem (h : EmitsFunction f n code n₁) {l : Label} (hl : l.id? = none)
    (hm : Code.label l ∈ code) : l = .function f.signature := by
  obtain ⟨_, ht⟩ := times_of_emitsFunction l h
  have hpos := times_pos hm
  have hw : within l.id? n n₁ = 0 := by rw [hl]; rfl
  have hc : 0 < [Label.function f.signature].count l := by omega
  exact List.mem_singleton.1 (List.count_pos_iff.1 hc)

/-- The jumps of a function go to labels declared once, in it. Its statements are laid out in it, and
it ends in a return. -/
structure Bound (f : Function) (code : Code) : Prop where
  jumps : ∀ x : Instruction Value, .instruction x ∈ code → .instruction ∈ x.written →
    x.opcode ≠ .call → x.opcode ≠ .ret →
    ∃ name, (Line.instruction x).reference? = some name ∧ (declarations code).count name = 1
  nested : ∃ L : Layout,
    code = [.blank, Code.label (.function f.signature)] ++
      Code.reserve frameSize f.locals.length ++ L.lines [] ++
      Code.release frameSize f.locals.length ++ [Code.ret] ∧
    ∀ w part, (Part.block f.body).at? w = some part → L.Holds none w part
  last : code.getLast? = some Code.ret

theorem bound_of_function (h : function f n = .ok (code, n₁)) : Bound f code := by
  have hemits := emitsFunction_of_function h
  obtain ⟨_, hclosed⟩ := closed_of_emitsFunction
    (s := ⟨f.locals.length, f.parameters.length, False⟩) hemits rfl rfl False.elim
  refine ⟨fun x hm hx hcall hret => ?_, ?_, hclosed.last⟩
  · obtain hr | ⟨g, hg⟩ | ⟨l, _, ht⟩ := hclosed.transfer hm hx
    · cases hr
      exact absurd rfl hret
    · cases hg
      exact absurd rfl hcall
    · have hpos := times_pos (hclosed.targets _ hm _ ht)
      have hone := times_le_one_of_emitsFunction hemits l
      exact ⟨l.text, reference?_of_jumpTarget? ht, Nat.le_antisymm hone hpos⟩
  · obtain ⟨body, hE, hcode⟩ := hemits
    obtain ⟨L, rfl, hL⟩ := laid_of_emits hE
    exact ⟨L, hcode, hL⟩

end

/-! ### Programs -/

/-- The code of a function between other lines. Control enters it where it begins, by calls alone,
because the lines before it return and no line refers to any other label in it. Control leaves it by
calls and by returning alone. -/
structure Sealed (before code after : Code) (g : Signature) : Prop where
  previous : before.getLast? = some Code.ret
  entry : ∃ rest, code = [.blank, Code.label (.function g)] ++ rest
  last : code.getLast? = some Code.ret
  once : ∀ name ∈ declarations code, (declarations (before ++ code ++ after)).count name = 1
  entered : ∀ line ∈ before ++ after, ∀ name, line.reference? = some name →
    Line.label name ∈ code → line = Code.call (.function g)
  left : ∀ line ∈ code, ∀ name, line.reference? = some name → Line.label name ∉ code →
    ∃ g', line = Code.call (.function g')
  known : ∀ x : Instruction Value, .instruction x ∈ before ++ code ++ after →
    .instruction ∈ x.written → Line.instruction x = Code.ret ∨
      ∃ name, (Line.instruction x).reference? = some name

theorem getLast?_flatten (line : Line) {parts : List Code} (hne : parts ≠ [])
    (h : ∀ lines ∈ parts, lines.getLast? = some line) : parts.flatten.getLast? = some line := by
  induction parts with
  | nil => exact absurd rfl hne
  | cons lines parts ih =>
    rw [List.flatten_cons, List.getLast?_append]
    by_cases hp : parts = []
    · rw [hp, h lines (List.mem_cons_self ..)]
      rfl
    · rw [ih hp fun l hl => h l (List.mem_cons_of_mem _ hl)]
      rfl

section

variable {fs : List Function} {codes : List Code} {program : Code}

theorem Compiled.known (h : Compiled fs codes program) {x : Instruction Value}
    (hm : Line.instruction x ∈ program) (hx : .instruction ∈ x.written) :
    Line.instruction x = Code.ret ∨ ∃ name, (Line.instruction x).reference? = some name := by
  obtain hmain | hend | hlabel | ⟨lines, hlines, hl⟩ := h.cases hm
  · exact .inr ⟨_, by rw [hmain]; rfl⟩
  · exact .inr ⟨_, by rw [hend]; rfl⟩
  · cases hlabel
  · obtain ⟨_, _, hclosed⟩ := closed_of_part h hlines
    obtain hr | ⟨g, hg⟩ | ⟨l, _, ht⟩ := hclosed.transfer hl hx
    · exact .inl hr
    · exact .inr ⟨_, by rw [hg]; rfl⟩
    · exact .inr ⟨_, reference?_of_jumpTarget? ht⟩

/-- Lines of a program other than those of one function: some that belong to no function, and whole
functions. -/
def Outer (codes : List Code) (others : Code) : Prop :=
  ∀ line ∈ others, line = Code.call (.function .main) ∨ line = Code.jmp .programEnd ∨
    line = Code.label .programEnd ∨ ∃ lines ∈ builtinCodes ++ codes, line ∈ lines ∧ lines ⊆ others

theorem exists_part_of_flatten {parts : List Code} {others : Code} (hparts : parts ⊆ builtinCodes ++ codes)
    (hothers : parts.flatten ⊆ others) {line : Line} (hl : line ∈ parts.flatten) :
    ∃ lines ∈ builtinCodes ++ codes, line ∈ lines ∧ lines ⊆ others := by
  obtain ⟨lines, hlines, hm⟩ := List.mem_flatten.1 hl
  exact ⟨lines, hparts hlines, hm, fun l h => hothers (List.mem_flatten.2 ⟨lines, hlines, h⟩)⟩

theorem outer_of_append {codes₁ codes₂ : List Code} {code : Code} :
    Outer (codes₁ ++ code :: codes₂) ((bootstrap ++ (builtinCodes ++ codes₁).flatten) ++
      (codes₂.flatten ++ [Code.label .programEnd])) := by
  have hfirst : builtinCodes ++ codes₁ ⊆ builtinCodes ++ (codes₁ ++ code :: codes₂) := by
    rw [← List.append_assoc]
    exact List.subset_append_left _ _
  have hsecond : codes₂ ⊆ builtinCodes ++ (codes₁ ++ code :: codes₂) :=
    fun lines h => List.mem_append_right _ (List.mem_append_right _ (List.mem_cons_of_mem _ h))
  intro line hl
  obtain (hboot | hbefore) | (hafter | hend) := (List.mem_append.1 hl).imp List.mem_append.1
    List.mem_append.1
  · simp only [bootstrap, List.mem_cons, List.not_mem_nil, or_false] at hboot
    exact hboot.imp_right .inl
  · exact .inr (.inr (.inr (exists_part_of_flatten hfirst
      (fun l h => List.mem_append_left _ (List.mem_append_right _ h)) hbefore)))
  · exact .inr (.inr (.inr (exists_part_of_flatten hsecond
      (fun l h => List.mem_append_right _ (List.mem_append_left _ h)) hafter)))
  · exact .inr (.inr (.inl (List.mem_singleton.1 hend)))

/-- Lines outside a function refer to its own label alone, in calls. A label that another function jumps
to is declared there, so it is not declared again. -/
theorem Compiled.entered (h : Compiled fs codes program) {f : Function} {n n₁ : Nat}
    {code others : Code} (hf : EmitsFunction f n code n₁) (ho : Outer codes others)
    (hdisjoint : ∀ name, Line.label name ∈ others → Line.label name ∉ code) {line : Line}
    (hl : line ∈ others) {name : String} (hr : line.reference? = some name)
    (hm : Line.label name ∈ code) : line = Code.call (.function f.signature) := by
  obtain rfl | rfl | rfl | ⟨lines, hlines, hline, hsub⟩ := ho line hl
  · cases hr
    rw [Label.function.inj (eq_of_label_mem (l := .function .main) hf rfl hm)]
  · cases hr
    cases eq_of_label_mem (l := .programEnd) hf rfl hm
  · cases hr
  · obtain ⟨g, _, rfl⟩ | ht := (h.ordinary lines hlines line hline).reference hr
    · cases hr
      rw [Label.function.inj (eq_of_label_mem (l := .function g) hf rfl hm)]
    · exact absurd hm (hdisjoint _ (hsub (targets_of_part h hlines line hline name ht)))

theorem label_notMem_of_nodup {before code after : Code} (name : String)
    (hn : (declarations (before ++ code ++ after)).Nodup)
    (ho : Line.label name ∈ before ++ after) : Line.label name ∉ code := by
  intro hm
  have hone := List.nodup_iff_count.1 hn name
  have hin := List.count_pos_iff.2 (mem_declarations_iff.2 hm)
  have hout := List.count_pos_iff.2 (mem_declarations_iff.2 ho)
  simp only [declarations_append, List.count_append] at hone hout
  omega

/-- Of the code of a function in a program, every other line knows the entry alone. -/
theorem sealed_of_function {text : String} {f : Function} (hp : parse text = .ok fs)
    (hc : compile text = .ok program) (hf : f ∈ fs) : ∃ before code after n n₁,
      function f n = .ok (code, n₁) ∧ program = before ++ code ++ after ∧
        Sealed before code after f.signature := by
  obtain ⟨codes, h⟩ := compiled_of_compile hp hc
  obtain ⟨i, hi⟩ := List.getElem?_of_mem hf
  have hlt : i < codes.length := by
    rw [h.emits.length_eq]
    exact (List.getElem?_eq_some_iff.1 hi).1
  obtain ⟨n, n₁, hfun⟩ := h.emits.get hi (List.getElem?_eq_getElem hlt)
  have hmem := List.getElem_mem hlt
  generalize codes[i] = code at hfun hmem
  obtain ⟨codes₁, codes₂, rfl⟩ := List.append_of_mem hmem
  have hemits := emitsFunction_of_function hfun
  have hprogram : program = (bootstrap ++ (builtinCodes ++ codes₁).flatten) ++ code ++
      (codes₂.flatten ++ [Code.label .programEnd]) := by
    rw [h.code_eq]
    simp only [List.flatten_append, List.flatten_cons, List.append_assoc]
  have hnodup := nodup_declarations_of_compile hc h
  have hdisjoint := fun name => label_notMem_of_nodup name (hprogram ▸ hnodup)
  refine ⟨_, code, _, n, n₁, hfun, hprogram, ?_, ?_, (bound_of_function hfun).last, ?_, ?_, ?_, ?_⟩
  · rw [List.getLast?_append, getLast?_flatten Code.ret (by simp [builtinCodes])]
    · rfl
    · intro lines hl
      have hpart : lines ∈ builtinCodes ++ (codes₁ ++ code :: codes₂) := by
        rw [← List.append_assoc]
        exact List.mem_append_left _ hl
      obtain ⟨_, _, hclosed⟩ := closed_of_part h hpart
      exact hclosed.last
  · obtain ⟨body, _, hcode⟩ := hemits
    exact ⟨_, by rw [hcode, List.append_assoc, List.append_assoc, List.append_assoc]⟩
  · intro name hname
    rw [← hprogram]
    have hpos : 0 < (declarations program).count name := by
      rw [List.count_pos_iff, hprogram, declarations_append, declarations_append]
      exact List.mem_append_left _ (List.mem_append_right _ hname)
    exact Nat.le_antisymm (List.nodup_iff_count.1 hnodup name) hpos
  · intro line hl name hr hm
    exact h.entered hemits outer_of_append hdisjoint hl hr hm
  · intro line hl name hr hm
    have hpart : code ∈ builtinCodes ++ (codes₁ ++ code :: codes₂) :=
      List.mem_append_right _ (List.mem_append_right _ (List.mem_cons_self ..))
    obtain ⟨g, _, rfl⟩ | ht := (h.ordinary code hpart line hl).reference hr
    · exact ⟨g, rfl⟩
    · exact absurd (targets_of_part h hpart line hl name ht) hm
  · intro x hm hx
    rw [← hprogram] at hm
    exact h.known hm hx

/-- Every jump of a function other than a call goes to a label declared once, among the lines of the
function. A BREAK goes to the exit of the innermost loop whose body it is in, and a CONTINUE to where
that loop goes on, whatever stands before it. The last instruction is a return, and in a program control
enters and leaves the function by calling and returning alone. -/
theorem jumps_bind (f : Function) :
    (∀ n code n₁, function f n = .ok (code, n₁) → Bound f code) ∧
      ∀ text fs program, parse text = .ok fs → compile text = .ok program → f ∈ fs →
        ∃ before code after n n₁, function f n = .ok (code, n₁) ∧
          program = before ++ code ++ after ∧ Sealed before code after f.signature :=
  ⟨fun _ _ _ h => bound_of_function h, fun _ _ _ hp hc hf => sealed_of_function hp hc hf⟩

/-- A function with a BREAK in a condition after a loop that has ended, in the body of another loop. -/
theorem jumps_bind_after_inner_loop : ∃ fs program f before code after n n₁,
    parse "DEF main() WHILE 1 DO FOR i := 0, 0 DO CONTINUE; END; IF 1 THEN BREAK; END; END; END;" =
      .ok fs ∧
    compile "DEF main() WHILE 1 DO FOR i := 0, 0 DO CONTINUE; END; IF 1 THEN BREAK; END; END; END;" =
      .ok program ∧ f ∈ fs ∧ function f n = .ok (code, n₁) ∧ program = before ++ code ++ after ∧
    Bound f code ∧ Sealed before code after f.signature := by
  have hok : (compile
      "DEF main() WHILE 1 DO FOR i := 0, 0 DO CONTINUE; END; IF 1 THEN BREAK; END; END; END;"
      ).toOption.isSome = true := by decide +kernel
  cases hc : compile
      "DEF main() WHILE 1 DO FOR i := 0, 0 DO CONTINUE; END; IF 1 THEN BREAK; END; END; END;" with
  | error e =>
    rw [hc] at hok
    cases hok
  | ok program =>
    obtain ⟨fs, codes, hp, hcheck, _⟩ := compile_eq_ok hc
    have hmain := main_defined_of_check hcheck
    rw [defined, List.mem_append, List.mem_map] at hmain
    obtain hb | ⟨f, hf, _⟩ := hmain
    · exact absurd hb (by decide)
    · obtain ⟨before, code, after, n, n₁, hfun, hprogram, hsealed⟩ :=
        (jumps_bind f).2 _ fs program hp hc hf
      exact ⟨fs, program, f, before, code, after, n, n₁, hp, rfl, hf, hfun, hprogram,
        (jumps_bind f).1 n code n₁ hfun, hsealed⟩

end

end WordMachine.Compiler
