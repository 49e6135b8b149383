import RuleLang.Proofs.Literals

/-!
Chains of operands, written with a single space between any two tokens, and the trees that they
stand for. A chain is split at its last connective of the lowest rank, and what stands on either
side is split in the same way. The grammar never looks for that connective: it joins operands level
by level, the highest level first. Joining and splitting give the same tree.
-/
namespace RuleLang

/-- The spellings of the binary operators other than assignment, with their ranks. -/
def connectives : List (Text × BinaryOp × Nat) :=
  [(['&', '&'], .and, 0), (['a', 'n', 'd'], .and, 0), (['|', '|'], .or, 0), (['o', 'r'], .or, 0),
    (['=', '='], .equal, 1), (['!', '='], .notEqual, 1), (['<'], .less, 1), (['>'], .greater, 1),
    (['<', '='], .lessEqual, 1), (['>', '='], .greaterEqual, 1),
    (['+'], .add, 2), (['-'], .subtract, 2),
    (['*'], .multiply, 3), (['/'], .divide, 3), (['%'], .remainder, 3)]

structure Connective where
  spelling : Text
  op : BinaryOp
  rank : Nat
  listed : (spelling, op, rank) ∈ connectives

/-- The ranks are the levels on which the grammar joins operands. -/
theorem Connective.level?_eq (connective : Connective) :
    connective.op.level? = some connective.rank := by
  have hlevels : ∀ row ∈ connectives, row.2.1.level? = some row.2.2 := by decide
  exact hlevels _ connective.listed

theorem Connective.rank_lt (connective : Connective) : connective.rank < 4 := by
  have hranks : ∀ row ∈ connectives, row.2.2 < 4 := by decide
  exact hranks _ connective.listed

theorem Connective.op_ne_assign (connective : Connective) : connective.op ≠ .assign := by
  have hops : ∀ row ∈ connectives, row.2.1 ≠ .assign := by decide
  exact hops _ connective.listed

/-- The links of a chain: its connectives, each with the tree of the operand after it. -/
abbrev Links := List (Connective × Tree)

/-- The last link of the lowest rank, with the links before and after it. -/
def Links.cut? : Links → Option (Links × (Connective × Tree) × Links)
  | [] => none
  | link :: links =>
    match cut? links with
    | none => some ([], link, [])
    | some (before, lowest, after) =>
      if link.1.rank < lowest.1.rank then some ([], link, links)
      else some (link :: before, lowest, after)

theorem Links.cut?_eq_none {links : Links} (h : links.cut? = none) : links = [] := by
  cases links with
  | nil => rfl
  | cons link links =>
    unfold cut? at h
    split at h
    · cases h
    · split at h <;> cases h

theorem Links.cut?_eq_some {links before after : Links} {lowest : Connective × Tree}
    (h : links.cut? = some (before, lowest, after)) :
    links = before ++ lowest :: after ∧ (∀ link ∈ before, lowest.1.rank ≤ link.1.rank) ∧
      ∀ link ∈ after, lowest.1.rank < link.1.rank := by
  induction links generalizing before after lowest with
  | nil => cases h
  | cons link links ih =>
    unfold cut? at h
    split at h
    · case _ hcut =>
      obtain rfl := cut?_eq_none hcut
      cases h
      exact ⟨rfl, nofun, nofun⟩
    · case _ before' lowest' after' hcut =>
      obtain ⟨rfl, hbefore, hafter⟩ := ih hcut
      split at h
      · case isTrue hlt =>
        cases h
        refine ⟨rfl, nofun, ?_⟩
        intro other hother
        rcases List.mem_append.mp hother with hmem | hmem
        · exact Nat.lt_of_lt_of_le hlt (hbefore other hmem)
        · rcases List.mem_cons.mp hmem with rfl | hmem
          · exact hlt
          · exact Nat.lt_trans hlt (hafter other hmem)
      · case isFalse hle =>
        cases h
        exact ⟨rfl, List.forall_mem_cons.mpr ⟨Nat.not_lt.mp hle, hbefore⟩, hafter⟩

/-- The tree of a chain, given by the tree of its first operand and its links. -/
def splitTree (first : Tree) (links : Links) : Tree :=
  match _hcut : links.cut? with
  | none => first
  | some (before, (connective, next), after) =>
    .binary connective.op (splitTree first before) (splitTree next after)
termination_by links.length
decreasing_by
  all_goals
    have hsplit := congrArg List.length (Links.cut?_eq_some _hcut).1
    simp only [List.length_append, List.length_cons] at hsplit
    omega

namespace Grammar

/-- Joins the operands around the operators of several levels, one level after another. -/
def joinLevels : List Nat → Tree → List (BinaryOp × Tree) → Tree × List (BinaryOp × Tree)
  | [], first, links => (first, links)
  | level :: levels, first, links =>
    joinLevels levels (joinLevel level first links).1 (joinLevel level first links).2

theorem join_eq (first : Tree) (links : List (BinaryOp × Tree)) :
    join first links = (joinLevels [3, 2, 1, 0] first links).1 := rfl

theorem joinLevels_append (above below : List Nat) (first : Tree)
    (links : List (BinaryOp × Tree)) :
    joinLevels (above ++ below) first links =
      joinLevels below (joinLevels above first links).1 (joinLevels above first links).2 := by
  induction above generalizing first links with
  | nil => rfl
  | cons level above ih => exact ih _ _

theorem joinLevels_nil (levels : List Nat) (first : Tree) :
    joinLevels levels first [] = (first, []) := by
  induction levels with
  | nil => rfl
  | cons level levels ih => exact ih

/-- An operator of another level keeps apart what stands before and after it. -/
theorem joinLevel_append {level : Nat} {op : BinaryOp} (hop : op.level? ≠ some level)
    (first next : Tree) (before after : List (BinaryOp × Tree)) :
    joinLevel level first (before ++ (op, next) :: after) =
      ((joinLevel level first before).1, (joinLevel level first before).2 ++
        (op, (joinLevel level next after).1) :: (joinLevel level next after).2) := by
  induction before generalizing first with
  | nil => simp only [List.nil_append, joinLevel, if_neg hop]
  | cons link before ih =>
    obtain ⟨op', next'⟩ := link
    simp only [List.cons_append, joinLevel]
    split
    · exact ih _
    · rw [ih]
      rfl

theorem joinLevels_split {levels : List Nat} {op : BinaryOp}
    (hop : ∀ level ∈ levels, op.level? ≠ some level) (first next : Tree)
    (before after : List (BinaryOp × Tree)) :
    joinLevels levels first (before ++ (op, next) :: after) =
      ((joinLevels levels first before).1, (joinLevels levels first before).2 ++
        (op, (joinLevels levels next after).1) :: (joinLevels levels next after).2) := by
  induction levels generalizing first next before after with
  | nil => rfl
  | cons level levels ih =>
    obtain ⟨hlevel, hlevels⟩ := List.forall_mem_cons.mp hop
    simp only [joinLevels, joinLevel_append hlevel, ih hlevels]

/-- What is left after a level has been joined has other levels, and these were there before. -/
theorem mem_joinLevel {level : Nat} {first : Tree} {links : List (BinaryOp × Tree)}
    {link : BinaryOp × Tree} (h : link ∈ (joinLevel level first links).2) :
    link.1.level? ≠ some level ∧ ∃ old ∈ links, old.1 = link.1 := by
  induction links generalizing first with
  | nil => cases h
  | cons head links ih =>
    obtain ⟨op, next⟩ := head
    unfold joinLevel at h
    split at h
    case isTrue =>
      obtain ⟨hlevel, old, hold, heq⟩ := ih h
      exact ⟨hlevel, old, List.mem_cons_of_mem _ hold, heq⟩
    case isFalse hother =>
      rcases List.mem_cons.mp h with rfl | hmem
      · exact ⟨hother, _, List.mem_cons_self, rfl⟩
      · obtain ⟨hlevel, old, hold, heq⟩ := ih hmem
        exact ⟨hlevel, old, List.mem_cons_of_mem _ hold, heq⟩

theorem mem_joinLevels {levels : List Nat} {first : Tree} {links : List (BinaryOp × Tree)}
    {link : BinaryOp × Tree} (h : link ∈ (joinLevels levels first links).2) :
    (∀ level ∈ levels, link.1.level? ≠ some level) ∧ ∃ old ∈ links, old.1 = link.1 := by
  induction levels generalizing first links with
  | nil => exact ⟨nofun, link, h, rfl⟩
  | cons level levels ih =>
    obtain ⟨hlevels, between, hbetween, heq⟩ := ih h
    obtain ⟨hlevel, old, hold, heq'⟩ := mem_joinLevel hbetween
    rw [heq] at hlevel heq'
    exact ⟨List.forall_mem_cons.mpr ⟨hlevel, hlevels⟩, old, hold, heq'⟩

section OneLevel

variable {level : Nat} {links : List (BinaryOp × Tree)}
  (h : ∀ link ∈ links, link.1.level? = some level)

include h

theorem joinLevel_links_nil (first : Tree) : (joinLevel level first links).2 = [] := by
  rw [List.eq_nil_iff_forall_not_mem]
  intro link hlink
  obtain ⟨hlevel, old, hold, heq⟩ := mem_joinLevel hlink
  exact hlevel (heq ▸ h old hold)

/-- Operators that are all of the level leave a single tree, the last of them at its root. -/
theorem joinLevel_concat {op : BinaryOp} (hop : op.level? = some level) (first next : Tree) :
    joinLevel level first (links ++ [(op, next)]) =
      (.binary op (joinLevel level first links).1 next, []) := by
  induction links generalizing first with
  | nil => simp only [List.nil_append, joinLevel, if_pos hop]
  | cons link links ih =>
    obtain ⟨hlink, hlinks⟩ := List.forall_mem_cons.mp h
    simp only [List.cons_append, joinLevel, if_pos hlink, ih hlinks]

end OneLevel

theorem exists_levels {rank : Nat} (h : rank < 4) :
    ∃ above below, [3, 2, 1, 0] = above ++ rank :: below ∧
      ∀ level, level ∈ above ↔ rank < level ∧ level < 4 := by
  interval_cases rank
  · exact ⟨[3, 2, 1], [], rfl, fun level => by simp; omega⟩
  · exact ⟨[3, 2], [0], rfl, fun level => by simp; omega⟩
  · exact ⟨[3], [1, 0], rfl, fun level => by simp; omega⟩
  · exact ⟨[], [2, 1, 0], rfl, fun level => by simp; omega⟩

/-- Joining splits a chain at its last operator of the lowest level. -/
theorem join_split {op : BinaryOp} {rank : Nat} (hrank : rank < 4) (hop : op.level? = some rank)
    {before after : List (BinaryOp × Tree)}
    (hbefore : ∀ link ∈ before, ∃ level, link.1.level? = some level ∧ rank ≤ level ∧ level < 4)
    (hafter : ∀ link ∈ after, ∃ level, link.1.level? = some level ∧ rank < level ∧ level < 4)
    (first next : Tree) :
    join first (before ++ (op, next) :: after) =
      .binary op (join first before) (join next after) := by
  obtain ⟨above, below, hlevels, habove⟩ := exists_levels hrank
  have hjoin (first : Tree) (links : List (BinaryOp × Tree)) : join first links =
      (joinLevels below (joinLevel rank (joinLevels above first links).1
        (joinLevels above first links).2).1 (joinLevel rank (joinLevels above first links).1
        (joinLevels above first links).2).2).1 := by
    rw [join_eq, hlevels, joinLevels_append]
    rfl
  have hother : ∀ level ∈ above, op.level? ≠ some level := by
    rintro level hmem heq
    obtain rfl := Option.some.inj (hop.symm.trans heq)
    exact absurd ((habove rank).mp hmem).1 (Nat.lt_irrefl rank)
  have hbefore : ∀ link ∈ (joinLevels above first before).2, link.1.level? = some rank := by
    intro link hlink
    obtain ⟨hlevels, old, hold, heq⟩ := mem_joinLevels hlink
    obtain ⟨level, hlevel, hle, hlt⟩ := hbefore old hold
    rw [heq] at hlevel
    have hnot : ¬ rank < level := fun h => hlevels level ((habove level).mpr ⟨h, hlt⟩) hlevel
    rw [hlevel, Nat.le_antisymm hle (Nat.not_lt.mp hnot)]
  have hafter : (joinLevels above next after).2 = [] := by
    rw [List.eq_nil_iff_forall_not_mem]
    intro link hlink
    obtain ⟨hlevels, old, hold, heq⟩ := mem_joinLevels hlink
    obtain ⟨level, hlevel, hlt⟩ := hafter old hold
    rw [heq] at hlevel
    exact hlevels level ((habove level).mpr hlt) hlevel
  rw [hjoin, hjoin first before, hjoin next after, joinLevels_split hother, hafter,
    joinLevel_concat hbefore hop, joinLevel_links_nil hbefore, joinLevel, joinLevels_nil,
    joinLevels_nil, joinLevels_nil]

end Grammar

/-- The grammar gives a chain the tree that splitting gives it. -/
theorem join_eq_splitTree (first : Tree) (links : Links) :
    Grammar.join first (links.map fun link => (link.1.op, link.2)) = splitTree first links := by
  fun_induction splitTree first links with
  | case1 first links hcut =>
    obtain rfl := Links.cut?_eq_none hcut
    rfl
  | case2 first links before connective next after hcut ihbefore ihafter =>
    obtain ⟨rfl, hbefore, hafter⟩ := Links.cut?_eq_some hcut
    rw [List.map_append, List.map_cons,
      Grammar.join_split connective.rank_lt connective.level?_eq, ihbefore, ihafter]
    · simp only [List.forall_mem_map]
      exact fun link hlink => ⟨_, link.1.level?_eq, hbefore link hlink, link.1.rank_lt⟩
    · simp only [List.forall_mem_map]
      exact fun link hlink => ⟨_, link.1.level?_eq, hafter link hlink, link.1.rank_lt⟩

inductive Sign
  | minus
  | bang

namespace Sign

def char : Sign → Char
  | minus => '-'
  | bang => '!'

def op : Sign → UnaryOp
  | minus => .negate
  | bang => .not

end Sign

mutual

inductive Operand
  | literal (digits : Text) (isNumeral : IsNumeral digits)
      (small : Text.natValue digits ≤ 2147483647)
  | name (x : String) (isIdentifier : IsIdentifier x)
  | parens (chain : Chain)
  | signed (sign : Sign) (operand : Operand)

inductive Chain
  | last (operand : Operand)
  | cons (operand : Operand) (connective : Connective) (chain : Chain)

end

mutual

/-- The tokens of an operand, with a space between any two. -/
def Operand.text : Operand → Text
  | .literal digits _ _ => digits
  | .name x _ => x.toList
  | .parens chain => Text.within '(' ')' (' ' :: (chain.text ++ [' ']))
  | .signed sign operand => sign.char :: ' ' :: operand.text

/-- The tokens of a chain, with a space between any two. -/
def Chain.text : Chain → Text
  | .last operand => operand.text
  | .cons operand connective chain =>
    operand.text ++ ' ' :: (connective.spelling ++ ' ' :: chain.text)

end

mutual

/-- Parentheses leave no trace in the tree. -/
def Operand.tree : Operand → Tree
  | .literal digits _ _ => .number (Int32.ofNat (Text.natValue digits))
  | .name x _ => .name x
  | .parens chain => splitTree chain.parts.1 chain.parts.2
  | .signed sign operand => .unary sign.op operand.tree

/-- The tree of the first operand of a chain, and its links. -/
def Chain.parts : Chain → Tree × Links
  | .last operand => (operand.tree, [])
  | .cons operand connective chain =>
    (operand.tree, (connective, chain.parts.1) :: chain.parts.2)

end

def Chain.tree (chain : Chain) : Tree := splitTree chain.parts.1 chain.parts.2

end RuleLang
