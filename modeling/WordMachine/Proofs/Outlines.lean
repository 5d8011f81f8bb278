import Mathlib.Data.List.Forall2
import WordMachine.Text.Outline

/-!
# Lines of outlines

The lines of an outline stand for its places, in their order, each once (`lines_places`). What a line
begins with shows for every node on the way to its place whether it is the last child of its parent
(`lastsOf_margin`), and outlines with the same lines are the same (`lines_inj`).
-/

namespace WordMachine

/-! ### Places in trees -/

section

variable {α β : Type} {children : α → List α} {children' : β → List β} {f : α → β}

/-- The node at a place of a tree. A place says which child comes next on the way from the root. -/
def nodeAt? (children : α → List α) : α → List Nat → Option α
  | a, [] => some a
  | a, i :: p => (children a)[i]?.bind fun c => nodeAt? children c p

/-- Whether each node on the way to a place is the last child of its parent. The root has no parent. -/
def lastsTo (children : α → List α) : α → List Nat → List Bool
  | _, [] => []
  | a, i :: p =>
    (i + 1 == (children a).length) :: (children a)[i]?.elim [] fun c => lastsTo children c p

theorem nodeAt?_map (hf : ∀ a, children' (f a) = (children a).map f) (a : α) (p : List Nat) :
    nodeAt? children' (f a) p = (nodeAt? children a p).map f := by
  induction p generalizing a with
  | nil => rfl
  | cons i p ih =>
    rw [nodeAt?, nodeAt?, hf, List.getElem?_map]
    cases (children a)[i]? with
    | none => rfl
    | some c => exact ih c

theorem lastsTo_map (hf : ∀ a, children' (f a) = (children a).map f) (a : α) (p : List Nat) :
    lastsTo children' (f a) p = lastsTo children a p := by
  induction p generalizing a with
  | nil => rfl
  | cons i p ih =>
    rw [lastsTo, lastsTo, hf, List.getElem?_map, List.length_map]
    cases (children a)[i]? with
    | none => rfl
    | some c => exact congrArg _ (ih c)

/-- What passes from every node to its children holds at every place. -/
theorem of_nodeAt? {P : α → Prop} (hP : ∀ a, P a → ∀ c ∈ children a, P c) {a b : α} {p : List Nat}
    (ha : P a) (h : nodeAt? children a p = some b) : P b := by
  induction p generalizing a with
  | nil =>
    cases h
    exact ha
  | cons i p ih =>
    obtain ⟨c, hc, h⟩ := Option.bind_eq_some_iff.1 h
    exact ih (hP a ha c (List.mem_of_getElem? hc)) h

end

namespace Outline

def heading : Outline → String
  | node heading _ => heading

def children : Outline → List Outline
  | node _ below => below

mutual

def places : Outline → List (List Nat)
  | node _ below => [] :: placesBelow 0 below

/-- The places of outlines below a heading, the first of which has this number. -/
def placesBelow (i : Nat) : List Outline → List (List Nat)
  | [] => []
  | o :: os => o.places.map (i :: ·) ++ placesBelow (i + 1) os

end

section

variable {o : Outline} {os : List Outline} {i : Nat} {p : List Nat}

theorem mem_placesBelow : p ∈ placesBelow i os ↔
    ∃ j q o, p = (i + j) :: q ∧ os[j]? = some o ∧ q ∈ o.places := by
  induction os generalizing i with
  | nil => simp [placesBelow]
  | cons o os ih =>
    rw [placesBelow, List.mem_append, List.mem_map, ih]
    constructor
    · rintro (⟨q, hq, rfl⟩ | ⟨j, q, o', rfl, ho', hq⟩)
      · exact ⟨0, q, o, rfl, rfl, hq⟩
      · exact ⟨j + 1, q, o', by rw [Nat.add_right_comm, Nat.add_assoc], ho', hq⟩
    · rintro ⟨_ | j, q, o', rfl, ho', hq⟩
      · cases ho'
        exact .inl ⟨q, hq, rfl⟩
      · exact .inr ⟨j, q, o', by rw [Nat.add_right_comm, Nat.add_assoc], ho', hq⟩

theorem mem_places : p ∈ o.places ↔ (nodeAt? children o p).isSome := by
  induction p generalizing o with
  | nil =>
    cases o
    simp [places, nodeAt?]
  | cons i p ih =>
    obtain ⟨heading, os⟩ := o
    rw [places, List.mem_cons, mem_placesBelow, nodeAt?, children]
    simp only [reduceCtorEq, false_or, Nat.zero_add, List.cons.injEq]
    constructor
    · rintro ⟨_, _, o, ⟨rfl, rfl⟩, ho, hp⟩
      rw [ho]
      exact ih.1 hp
    · intro h
      obtain ⟨_, h⟩ := Option.isSome_iff_exists.1 h
      obtain ⟨o, ho, hp⟩ := Option.bind_eq_some_iff.1 h
      exact ⟨i, p, o, ⟨rfl, rfl⟩, ho, ih.2 (Option.isSome_iff_exists.2 ⟨_, hp⟩)⟩

mutual

/-- Places are listed in order: a node before those below it, and children one after another. -/
theorem pairwise_places (o : Outline) : o.places.Pairwise (· < ·) := by
  match o with
  | node heading os =>
    rw [places, List.pairwise_cons]
    refine ⟨fun p hp => ?_, pairwise_placesBelow 0 os⟩
    obtain ⟨j, q, o, rfl, _⟩ := mem_placesBelow.1 hp
    exact List.nil_lt_cons _ _

theorem pairwise_placesBelow (i : Nat) (os : List Outline) : (placesBelow i os).Pairwise (· < ·) := by
  match os with
  | [] => exact .nil
  | o :: os =>
    rw [placesBelow, List.pairwise_append, List.pairwise_map]
    refine ⟨(pairwise_places o).imp fun h => List.cons_lt_cons_iff.2 (.inr ⟨rfl, h⟩),
      pairwise_placesBelow (i + 1) os, fun p hp q hq => ?_⟩
    obtain ⟨p, _, rfl⟩ := List.mem_map.1 hp
    obtain ⟨j, q, o, rfl, _⟩ := mem_placesBelow.1 hq
    exact List.cons_lt_cons_iff.2 (.inl (by omega))

end

end

/-! ### Margins -/

/-- What leads to a heading, which may be the last one under its parent. -/
def branch (last : Bool) : String := if last then "└── " else "├── "

/-- What stands before the lines below a heading, which may be the last one under its parent. -/
def bar (last : Bool) : String := if last then "    " else "│   "

/-- What stands before a heading. -/
def margin : List Bool → String
  | [] => ""
  | [last] => branch last
  | last :: lasts => bar last ++ margin lasts

theorem newline_not_mem_margin (lasts : List Bool) : '\n' ∉ (margin lasts).toList := by
  induction lasts with
  | nil => simp [margin]
  | cons last lasts ih =>
    cases lasts with
    | nil => cases last <;> simp [margin, branch]
    | cons next lasts => cases last <;> simp [margin, bar, ih]

/-- What a line begins with if its outline is drawn behind other texts. -/
def lead (first rest : String) : List Bool → String
  | [] => first
  | last :: lasts => rest ++ margin (last :: lasts)

theorem lead_cons (first rest : String) (last : Bool) (lasts : List Bool) :
    lead first rest (last :: lasts) = lead (rest ++ branch last) (rest ++ bar last) lasts := by
  cases lasts with
  | nil => rfl
  | cons next lasts =>
    rw [lead, lead, margin, String.append_assoc]
    simp

theorem lead_empty (lasts : List Bool) : lead "" "" lasts = margin lasts := by
  cases lasts with
  | nil => rfl
  | cons last lasts => exact String.empty_append

theorem linesBelow_cons (stem : String) (o : Outline) (os : List Outline) :
    linesBelow stem (o :: os) =
      o.lines (stem ++ branch os.isEmpty) (stem ++ bar os.isEmpty) ++ linesBelow stem os := by
  cases os with
  | nil => simp [linesBelow, branch, bar]
  | cons _ _ => rfl

/-- A line stands for a place: it shows the heading there behind a margin for the place. -/
def ShowsAt (first rest : String) (o : Outline) (line : String) (p : List Nat) : Prop :=
  ∃ n, nodeAt? children o p = some n ∧ line = lead first rest (lastsTo children o p) ++ n.heading

mutual

/-- Each line stands for one place, and each place has one line. -/
theorem lines_places (first rest : String) (o : Outline) :
    List.Forall₂ (ShowsAt first rest o) (o.lines first rest) o.places := by
  match o with
  | node heading os => exact .cons ⟨_, rfl, rfl⟩ (linesBelow_places first rest heading [] os)

theorem linesBelow_places (first rest heading : String) (before os : List Outline) :
    List.Forall₂ (ShowsAt first rest (node heading (before ++ os))) (linesBelow rest os)
      (placesBelow before.length os) := by
  match os with
  | [] => exact .nil
  | o :: os =>
    have hothers := linesBelow_places first rest heading (before ++ [o]) os
    rw [List.append_assoc, List.length_append] at hothers
    rw [linesBelow_cons, placesBelow]
    refine List.rel_append (List.forall₂_map_right_iff.2 ?_) hothers
    refine (lines_places (rest ++ branch os.isEmpty) (rest ++ bar os.isEmpty) o).imp ?_
    rintro line p ⟨n, hn, rfl⟩
    have hget : (before ++ o :: os)[before.length]? = some o := by simp
    have hlast : (before.length + 1 == (before ++ o :: os).length) = os.isEmpty := by
      cases os <;> simp
    refine ⟨n, ?_, ?_⟩
    · rw [nodeAt?, children, hget]
      exact hn
    · rw [lastsTo, children, hget, hlast, lead_cons]
      rfl

end

/-! ### Reading margins -/

/-- What the margin of a line says. -/
def lastsOf : List Char → List Bool
  | ' ' :: ' ' :: ' ' :: ' ' :: cs => true :: lastsOf cs
  | '│' :: ' ' :: ' ' :: ' ' :: cs => false :: lastsOf cs
  | '└' :: _ => [true]
  | '├' :: _ => [false]
  | _ => []

theorem lastsOf_of_isAlpha {c : Char} (hc : c.isAlpha = true) (cs : List Char) : lastsOf (c :: cs) = [] := by
  unfold lastsOf
  split
  all_goals first | rfl | simp_all

/-- A margin before a letter is read back. -/
theorem lastsOf_margin (lasts : List Bool) {c : Char} (hc : c.isAlpha = true) (cs : List Char) :
    lastsOf ((margin lasts).toList ++ c :: cs) = lasts := by
  induction lasts with
  | nil => exact lastsOf_of_isAlpha hc cs
  | cons last lasts ih =>
    cases lasts with
    | nil => cases last <;> rfl
    | cons next lasts =>
      rw [margin, String.toList_append, List.append_assoc]
      · cases last with
        | true => exact congrArg (true :: ·) ih
        | false => exact congrArg (false :: ·) ih
      · simp

/-! ### Drawings of outlines -/

theorem intercalate_newline (l : String) (ls : List String) :
    "\n".intercalate (l :: ls) = l ++ String.join (ls.map ("\n" ++ ·)) := by
  induction ls generalizing l with
  | nil => simp
  | cons l' ls ih =>
    rw [String.intercalate_cons_cons, ih, List.map_cons, String.join_cons, String.append_assoc,
      String.append_assoc]

def draw (o : Outline) : Draw := fun first rest => "\n".intercalate (o.lines first rest)

theorem newline_draw (o : Outline) (first rest : String) :
    "\n" ++ o.draw first rest = String.join ((o.lines first rest).map ("\n" ++ ·)) := by
  obtain ⟨heading, os⟩ := o
  rw [draw, lines, intercalate_newline, List.map_cons, String.join_cons, ← String.append_assoc]

theorem drawBelow_cons (stem : String) (d : Draw) (ds : List Draw) :
    drawBelow stem (d :: ds) =
      "\n" ++ d (stem ++ branch ds.isEmpty) (stem ++ bar ds.isEmpty) ++ drawBelow stem ds := by
  cases ds with
  | nil => simp [drawBelow, branch, bar]
  | cons _ _ => rfl

theorem drawBelow_map (stem : String) (os : List Outline) :
    drawBelow stem (os.map draw) = String.join ((linesBelow stem os).map ("\n" ++ ·)) := by
  induction os with
  | nil => rfl
  | cons o os ih =>
    rw [List.map_cons, drawBelow_cons, List.isEmpty_map, ih, newline_draw, linesBelow_cons, List.map_append,
      String.join_append]

theorem draw_node (heading : String) (os : List Outline) (first rest : String) :
    (node heading os).draw first rest = first ++ heading ++ drawBelow rest (os.map draw) := by
  rw [draw, lines, intercalate_newline, drawBelow_map]

/-! ### Outlines with the same lines -/

/-- The next line does not begin with a stem. -/
def Apart (stem : String) (ls : List String) : Prop :=
  ∀ l ∈ ls.head?, ¬stem.toList <+: l.toList

section

variable {stem : String} {o : Outline} {os : List Outline} {ls : List String}

theorem Apart.append (h : Apart stem ls) (s : String) : Apart (stem ++ s) ls := by
  intro l hl hprefix
  rw [String.toList_append] at hprefix
  exact h l hl ((List.prefix_append _ _).trans hprefix)

theorem exists_linesBelow_cons (stem : String) (o : Outline) (os : List Outline) :
    ∃ ls, linesBelow stem (o :: os) = (stem ++ branch os.isEmpty ++ o.heading) :: ls := by
  obtain ⟨heading, os'⟩ := o
  rw [linesBelow_cons]
  exact ⟨_, rfl⟩

theorem not_apart_linesBelow (stem : String) (o : Outline) (os : List Outline) (ls : List String) :
    ¬Apart stem (linesBelow stem (o :: os) ++ ls) := by
  obtain ⟨ls', hls'⟩ := exists_linesBelow_cons stem o os
  rw [hls']
  intro h
  refine h _ rfl ?_
  rw [String.append_assoc, String.toList_append]
  exact List.prefix_append _ _

/-- The lines below a heading end where the next heading under its parent, or under a node before it,
begins. -/
theorem Apart.linesBelow (h : Apart stem ls) (os : List Outline) :
    Apart (stem ++ bar os.isEmpty) (Outline.linesBelow stem os ++ ls) := by
  cases os with
  | nil => exact h.append _
  | cons o os =>
    obtain ⟨ls', hls'⟩ := exists_linesBelow_cons stem o os
    rw [hls']
    rintro _ ⟨⟩
    rw [String.append_assoc, String.toList_append, String.toList_append, List.prefix_append_right_inj]
    cases os with
    | nil => simp [bar, branch]
    | cons _ _ => simp [bar, branch]

mutual

/-- The lines of an outline show where they end, and which outline it is. -/
theorem lines_inj (o o' : Outline) {first rest : String} {ls ls' : List String} (hls : Apart rest ls)
    (hls' : Apart rest ls') (h : o.lines first rest ++ ls = o'.lines first rest ++ ls') :
    o = o' ∧ ls = ls' := by
  match o, o' with
  | node heading os, node heading' os' =>
    obtain ⟨hfirst, hrest⟩ := List.cons.inj h
    obtain rfl : heading = heading' := String.append_right_inj _ |>.1 hfirst
    obtain ⟨rfl, rfl⟩ := linesBelow_inj os os' hls hls' hrest
    exact ⟨rfl, rfl⟩

theorem linesBelow_inj (os os' : List Outline) {stem : String} {ls ls' : List String}
    (hls : Apart stem ls) (hls' : Apart stem ls')
    (h : linesBelow stem os ++ ls = linesBelow stem os' ++ ls') : os = os' ∧ ls = ls' := by
  match os, os' with
  | [], [] => exact ⟨rfl, h⟩
  | [], o' :: os' => exact absurd (h ▸ hls) (not_apart_linesBelow stem o' os' ls')
  | o :: os, [] => exact absurd (h ▸ hls') (not_apart_linesBelow stem o os ls)
  | o :: os, o' :: os' =>
    have hempty : os.isEmpty = os'.isEmpty := by
      obtain ⟨_, hlines⟩ := exists_linesBelow_cons stem o os
      obtain ⟨_, hlines'⟩ := exists_linesBelow_cons stem o' os'
      rw [hlines, hlines'] at h
      have hfirst := congrArg String.toList (List.cons.inj h).1
      cases hos : os.isEmpty <;> cases hos' : os'.isEmpty <;>
        simp [hos, hos', branch] at hfirst ⊢
    have hnext := hls.linesBelow os
    have hnext' := hls'.linesBelow os'
    rw [linesBelow_cons, linesBelow_cons, ← hempty, List.append_assoc, List.append_assoc] at h
    rw [← hempty] at hnext'
    obtain ⟨rfl, hrest⟩ := lines_inj o o' hnext hnext' h
    obtain ⟨rfl, rfl⟩ := linesBelow_inj os os' hls hls' hrest
    exact ⟨rfl, rfl⟩

end

theorem splitOn_text (h : ∀ l ∈ o.lines "" "", '\n' ∉ l.toList) :
    o.text.toList.splitOn '\n' = (o.lines "" "").map String.toList := by
  have hne : (o.lines "" "").map String.toList ≠ [] := by
    cases o
    simp [lines]
  rw [text, String.toList_intercalate]
  exact List.splitOn_intercalate '\n' (List.forall_mem_map.2 h) hne

end

end Outline

end WordMachine
