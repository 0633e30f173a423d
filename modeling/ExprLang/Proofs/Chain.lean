import ExprLang.Parser.Expr

/-!
# Operator chains

A chain is an operand and a row of links behind it, each an operator and the operand that follows it.
The tree of a chain has at its root the rightmost operator of least precedence, and on both sides the
trees of the chains that remain. `Cursor.links` reads a row of links with no regard to precedence. The
main statement is `expr_eq_links`: an expression is a primary, the links behind it, and their tree, so
precedence climbing can be forgotten from there on. It holds for every table and also where parsing
fails.
-/

namespace ExprLang

namespace OpTable

/-- A character is an operator of the given precedence. -/
def IsOperator (ops : OpTable) (op : Char) (precedence : Int32) : Prop :=
  op.toNat < 128 ∧ ops.get? op = some precedence ∧ 0 ≤ precedence

instance (ops : OpTable) (op : Char) (precedence : Int32) : Decidable (ops.IsOperator op precedence) :=
  inferInstanceAs (Decidable (_ ∧ _ ∧ _))

/-- An operator is found at its symbol. -/
theorem operator?_symbol_iff {ops : OpTable} {op : Char} {precedence : Int32} :
    ops.operator? (some (.symbol op)) = some (op, precedence) ↔ ops.IsOperator op precedence := by
  simp [operator?_eq_some_iff, IsOperator]

end OpTable

/-- An operator with its precedence, and the operand behind it. -/
structure Link where
  op : Char
  precedence : Int32
  operand : Expr

namespace Link

/-- The tree of a chain: at the root stands the rightmost operator of least precedence. -/
inductive Denotes : Expr → List Link → Expr → Prop
  | single {first : Expr} : Denotes first [] first
  | root {first lhs rhs : Expr} {before after : List Link} {link : Link}
      (hbefore : ∀ k ∈ before, link.precedence ≤ k.precedence)
      (hafter : ∀ k ∈ after, link.precedence < k.precedence)
      (hlhs : Denotes first before lhs) (hrhs : Denotes link.operand after rhs) :
      Denotes first (before ++ link :: after) (.binary link.op lhs rhs)

/-- The links before the rightmost one of least precedence, that link, and those after it. -/
def splitRoot : List Link → Option (List Link × Link × List Link)
  | [] => none
  | k :: ks =>
      match splitRoot ks with
      | none => some ([], k, [])
      | some (before, link, after) =>
          if link.precedence ≤ k.precedence then some (k :: before, link, after)
          else some ([], k, ks)

/-- A row of links has no root only if it is empty. -/
theorem splitRoot_eq_none {links : List Link} (h : splitRoot links = none) : links = [] := by
  cases links with
  | nil => rfl
  | cons k ks =>
      simp only [splitRoot] at h
      split at h
      · simp at h
      · split at h <;> simp at h

/-- The root is a link of the row, below none before it and below all after it. -/
theorem splitRoot_eq_some {links before after : List Link} {link : Link}
    (h : splitRoot links = some (before, link, after)) :
    links = before ++ link :: after ∧ (∀ k ∈ before, link.precedence ≤ k.precedence) ∧
      ∀ k ∈ after, link.precedence < k.precedence := by
  induction links generalizing before link after with
  | nil => simp [splitRoot] at h
  | cons k ks ih =>
      simp only [splitRoot] at h
      split at h
      next hnone =>
        rw [splitRoot_eq_none hnone]
        simp only [Option.some.injEq, Prod.mk.injEq] at h
        obtain ⟨rfl, rfl, rfl⟩ := h
        simp
      next before' link' after' hsome =>
        obtain ⟨hks, hbefore, hafter⟩ := ih hsome
        split at h
        next hle =>
          simp only [Option.some.injEq, Prod.mk.injEq] at h
          obtain ⟨rfl, rfl, rfl⟩ := h
          refine ⟨by rw [hks, List.cons_append], ?_, hafter⟩
          intro j hj
          rcases List.mem_cons.mp hj with rfl | hj
          · exact hle
          · exact hbefore j hj
        next hlt =>
          simp only [Option.some.injEq, Prod.mk.injEq] at h
          obtain ⟨rfl, rfl, rfl⟩ := h
          have hroot : k.precedence < link'.precedence := Int32.not_le.mp hlt
          refine ⟨rfl, by simp, ?_⟩
          intro j hj
          rw [hks] at hj
          rcases List.mem_append.mp hj with hj | hj
          · exact Int32.lt_of_lt_of_le hroot (hbefore j hj)
          · rcases List.mem_cons.mp hj with rfl | hj
            · exact hroot
            · exact Int32.lt_trans hroot (hafter j hj)

/-- Only one link of a row can be its root. -/
theorem splitRoot_append {before after : List Link} {link : Link}
    (hbefore : ∀ k ∈ before, link.precedence ≤ k.precedence)
    (hafter : ∀ k ∈ after, link.precedence < k.precedence) :
    splitRoot (before ++ link :: after) = some (before, link, after) := by
  induction before with
  | nil =>
      simp only [List.nil_append, splitRoot]
      split
      next hnone => rw [splitRoot_eq_none hnone]
      next before' link' after' hsome =>
        have hmem : link' ∈ after := by simp [(splitRoot_eq_some hsome).1]
        rw [if_neg (Int32.not_le.mpr (hafter link' hmem))]
  | cons k ks ih =>
      have hks := ih fun j hj => hbefore j (List.mem_cons_of_mem _ hj)
      simp only [List.cons_append, splitRoot, hks]
      rw [if_pos (hbefore k List.mem_cons_self)]

/-- Computes the tree of a chain. -/
def tree (first : Expr) (links : List Link) : Expr :=
  match _ : splitRoot links with
  | none => first
  | some (before, link, after) => .binary link.op (tree first before) (tree link.operand after)
termination_by links.length
decreasing_by
  all_goals
    have hlinks := (splitRoot_eq_some ‹splitRoot links = _›).1
    rw [hlinks, List.length_append, List.length_cons]
    omega

/-- An operand alone is its own tree. -/
@[simp] theorem tree_nil (first : Expr) : tree first [] = first := by
  rw [tree]
  rfl

/-- The root divides a chain, and its sides have trees of their own. -/
theorem tree_append {before after : List Link} {link : Link} (first : Expr)
    (hbefore : ∀ k ∈ before, link.precedence ≤ k.precedence)
    (hafter : ∀ k ∈ after, link.precedence < k.precedence) :
    tree first (before ++ link :: after) =
      .binary link.op (tree first before) (tree link.operand after) := by
  rw [tree]
  split
  next hnone => simp [splitRoot_append hbefore hafter] at hnone
  next before' link' after' hsome =>
    rw [splitRoot_append hbefore hafter] at hsome
    simp only [Option.some.injEq, Prod.mk.injEq] at hsome
    obtain ⟨rfl, rfl, rfl⟩ := hsome
    rfl

/-- The tree of a chain is what the chain denotes. -/
theorem denotes_tree (first : Expr) (links : List Link) : Denotes first links (tree first links) := by
  fun_induction tree first links with
  | case1 first links hnone =>
      rw [splitRoot_eq_none hnone]
      exact .single
  | case2 first links before link after hsome ihBefore ihAfter =>
      obtain ⟨hlinks, hbefore, hafter⟩ := splitRoot_eq_some hsome
      rw [hlinks]
      exact .root hbefore hafter ihBefore ihAfter

/-- A chain denotes nothing but its tree. -/
theorem Denotes.eq_tree {first t : Expr} {links : List Link} (h : Denotes first links t) :
    t = tree first links := by
  induction h with
  | single => rw [tree_nil]
  | root hbefore hafter _ _ ihLhs ihRhs => rw [tree_append _ hbefore hafter, ← ihLhs, ← ihRhs]

/-- A link may be joined to the operand before it once it has the tighter links behind it, if what
comes then does not bind tighter. -/
theorem Denotes.join {first rhs t : Expr} {link : Link} {tight rest : List Link}
    (htight : ∀ k ∈ tight, link.precedence < k.precedence)
    (hrest : ∀ k ∈ rest.head?, k.precedence ≤ link.precedence)
    (hrhs : Denotes link.operand tight rhs) (h : Denotes (.binary link.op first rhs) rest t) :
    Denotes first (link :: tight ++ rest) t := by
  generalize hjoined : Expr.binary link.op first rhs = joined at h
  induction h with
  | single =>
      subst hjoined
      rw [List.append_nil, ← List.nil_append (link :: tight)]
      exact .root (by simp) htight .single hrhs
  | @root x lhs rhs' before after last hbefore hafter hlhs hrhs' ihLhs ihRhs =>
      -- the head of the row is at most as tight as `link`, and the root is not tighter than the head
      have hlast : last.precedence ≤ link.precedence := by
        cases before with
        | nil => exact hrest last (by simp)
        | cons k ks => exact Int32.le_trans (hbefore k List.mem_cons_self) (hrest k (by simp))
      have hbefore' : ∀ k ∈ link :: tight ++ before, last.precedence ≤ k.precedence := by
        intro k hk
        rcases List.mem_append.mp hk with hk | hk
        · rcases List.mem_cons.mp hk with rfl | hk
          · exact hlast
          · exact Int32.le_of_lt (Int32.lt_of_le_of_lt hlast (htight k hk))
        · exact hbefore k hk
      have hhead : ∀ k ∈ before.head?, k.precedence ≤ link.precedence := by
        intro k hk
        apply hrest k
        rw [List.head?_append, Option.mem_def, Option.mem_def.mp hk, Option.some_or]
      rw [← List.append_assoc]
      exact .root hbefore' hafter (ihLhs hhead hjoined) hrhs'

/-- Joining a link does not change the tree. -/
theorem tree_join (first : Expr) (link : Link) {tight rest : List Link}
    (htight : ∀ k ∈ tight, link.precedence < k.precedence)
    (hrest : ∀ k ∈ rest.head?, k.precedence ≤ link.precedence) :
    tree (.binary link.op first (tree link.operand tight)) rest = tree first (link :: tight ++ rest) :=
  (Denotes.join htight hrest (denotes_tree _ tight) (denotes_tree _ rest)).eq_tree

end Link

namespace Outcome

variable {τ α β γ : Type} [TokenStream τ]

/-- Going on twice is going on once with both parts. -/
theorem andThen_assoc (r : Outcome τ α) (f : α → Cursor τ → Outcome τ β)
    (g : β → Cursor τ → Outcome τ γ) :
    (r.andThen f).andThen g = r.andThen fun a c => (f a c).andThen g := by
  obtain ⟨result, c⟩ := r
  cases result <;> rfl

/-- Going on with nothing more to do changes nothing. -/
@[simp] theorem andThen_ok (r : Outcome τ α) : (r.andThen fun a c => (.ok a, c)) = r := by
  obtain ⟨result, c⟩ := r
  cases result <;> rfl

/-- Going on after a success. -/
@[simp] theorem ok_andThen (a : α) (c : Cursor τ) (f : α → Cursor τ → Outcome τ β) :
    Outcome.andThen (.ok a, c) f = f a c := rfl

/-- Going on after a failure. -/
@[simp] theorem error_andThen (e : ParseError) (c : Cursor τ) (f : α → Cursor τ → Outcome τ β) :
    Outcome.andThen (.error e, c) f = (.error e, c) := rfl

/-- Going on fails where one of the parts does. -/
theorem andThen_eq_error_iff {r : Outcome τ α} {f : α → Cursor τ → Outcome τ β} {e : ParseError}
    {d : Cursor τ} :
    r.andThen f = (.error e, d) ↔
      r = (.error e, d) ∨ ∃ a c, r = (.ok a, c) ∧ f a c = (.error e, d) := by
  obtain ⟨result, c⟩ := r
  cases result with
  | ok a =>
      constructor
      · intro h
        exact .inr ⟨a, c, rfl, h⟩
      · rintro (h | ⟨_, _, ⟨⟩, h⟩)
        · simp at h
        · exact h
  | error e' => simp

/-- How to go on matters only after success. -/
theorem andThen_congr {r : Outcome τ α} {f g : α → Cursor τ → Outcome τ β}
    (h : ∀ a c, r = (.ok a, c) → f a c = g a c) : r.andThen f = r.andThen g := by
  obtain ⟨result, c⟩ := r
  cases result with
  | ok a => exact h a c rfl
  | error e => rfl

end Outcome

namespace Cursor

variable {τ : Type} [TokenStream τ]

/-- Parses a primary, with no more tokens left where it stops. -/
def primaryWithin (ops : OpTable) (c : Cursor τ) : { r : Outcome τ Expr // r.2.left ≤ c.left } :=
  ⟨c.primary ops, c.left_primary_le ops⟩

/-- Parses operators with a precedence that passes the test, each with the primary behind it. -/
def links (ops : OpTable) (p : Int32 → Bool) (c : Cursor τ) : Outcome τ (List Link) :=
  match hc : c.current with
  | some (.symbol op) =>
      match ops.get? op with
      | some precedence =>
          if ops.IsOperator op precedence ∧ p precedence = true then
            match c.advance.primaryWithin ops with
            | ⟨(.error e, d), _⟩ => (.error e, d)
            | ⟨(.ok operand, d), hd⟩ =>
                have : d.left < c.left := Nat.lt_of_le_of_lt hd (left_advance_lt hc)
                (d.links ops p).andThen fun ls e => (.ok (⟨op, precedence, operand⟩ :: ls), e)
          else (.ok [], c)
      | none => (.ok [], c)
  | _ => (.ok [], c)
termination_by c.left

/-- An operator that passes the test makes a link with the primary behind it. -/
theorem links_of_operator {ops : OpTable} {p : Int32 → Bool} {c : Cursor τ} {op : Char}
    {precedence : Int32} (hop : ops.operator? c.current = some (op, precedence))
    (hp : p precedence = true) :
    c.links ops p =
      (c.advance.primary ops).andThen fun operand d =>
        (d.links ops p).andThen fun ls e => (.ok (⟨op, precedence, operand⟩ :: ls), e) := by
  obtain ⟨hcurrent, hoperator⟩ := OpTable.operator?_eq_some_iff.mp hop
  have hoperator : ops.IsOperator op precedence := hoperator
  rw [links]
  split
  next op' hcurrent' =>
    obtain rfl : op' = op := by simpa [hcurrent] using hcurrent'.symm
    simp only [hoperator.2.1, hoperator, hp, and_self, if_true]
    split
    next e d hd h =>
      have hprimary : c.advance.primary ops = (.error e, d) := congrArg Subtype.val h
      rw [hprimary, Outcome.error_andThen]
    next operand d hd h =>
      have hprimary : c.advance.primary ops = (.ok operand, d) := congrArg Subtype.val h
      rw [hprimary, Outcome.ok_andThen]
  next hne => exact absurd hcurrent (hne op)

/-- Where no operator passes the test there are no links. -/
theorem links_of_stop {ops : OpTable} {p : Int32 → Bool} {c : Cursor τ}
    (h : ∀ op precedence, ops.operator? c.current = some (op, precedence) → p precedence = false) :
    c.links ops p = (.ok [], c) := by
  rw [links]
  split
  next op hcurrent =>
    split
    next precedence hget =>
      rw [if_neg]
      rintro ⟨hoperator, hp⟩
      rw [h op precedence (hcurrent ▸ OpTable.operator?_symbol_iff.mpr hoperator)] at hp
      simp at hp
    next => rfl
  next => rfl

/-- The token at a cursor decides whether there is a link. -/
theorem links_eq (ops : OpTable) (p : Int32 → Bool) (c : Cursor τ) :
    c.links ops p =
      match ops.operator? c.current with
      | none => (.ok [], c)
      | some (op, precedence) =>
          if p precedence then
            (c.advance.primary ops).andThen fun operand d =>
              (d.links ops p).andThen fun ls e => (.ok (⟨op, precedence, operand⟩ :: ls), e)
          else (.ok [], c) := by
  split
  next hop => exact links_of_stop (by simp [hop])
  next op precedence hop =>
    split
    next hp => exact links_of_operator hop hp
    next hp =>
      apply links_of_stop
      intro op' precedence' hop'
      rw [hop, Option.some.injEq, Prod.mk.injEq] at hop'
      rw [← hop'.2]
      exact Bool.eq_false_iff.mpr hp

/-- Links leave no more tokens than there were. -/
theorem left_links_le (ops : OpTable) (p : Int32 → Bool) (c : Cursor τ) :
    (c.links ops p).2.left ≤ c.left := by
  fun_induction links ops p c with
  | case1 c op hc precedence hget hop e d hd h => exact Nat.le_trans hd c.left_advance_le
  | case2 c op hc precedence hget hop operand d hd h hlt ih =>
      cases hlinks : d.links ops p with
      | mk result e =>
          rw [hlinks] at ih
          cases result <;> exact Nat.le_trans ih (Nat.le_of_lt hlt)
  | _ => exact Nat.le_refl _

/-- All links that were read pass the test, the first one starts at the cursor, and reading stopped
where no operator passes. -/
theorem links_spec {ops : OpTable} {p : Int32 → Bool} {c d : Cursor τ} {ls : List Link}
    (h : c.links ops p = (.ok ls, d)) :
    (∀ k ∈ ls, p k.precedence = true) ∧
      (∀ k ∈ ls.head?, ops.operator? c.current = some (k.op, k.precedence)) ∧
      ∀ op precedence, ops.operator? d.current = some (op, precedence) → p precedence = false := by
  induction hsize : c.left using Nat.strongRecOn generalizing c ls with
  | ind size ih =>
      rw [links_eq] at h
      split at h
      next hop =>
        obtain ⟨hls, rfl⟩ := Prod.mk.inj h
        rw [← Except.ok.inj hls]
        simp [hop]
      next op precedence hop =>
        split at h
        next hp =>
          obtain ⟨operand, e, hoperand, h⟩ := Outcome.andThen_eq_ok_iff.mp h
          obtain ⟨ls', f, hls', h⟩ := Outcome.andThen_eq_ok_iff.mp h
          obtain ⟨hls, rfl⟩ := Prod.mk.inj h
          have hadvance := left_advance_lt (OpTable.operator?_eq_some_iff.mp hop).1
          have hlt := left_lt_of_primary_ok hoperand
          obtain ⟨hall, _, hstop⟩ := ih e.left (by omega) hls' rfl
          rw [← Except.ok.inj hls]
          refine ⟨?_, by simp [hop], hstop⟩
          intro k hk
          rcases List.mem_cons.mp hk with rfl | hk
          · exact hp
          · exact hall k hk
        next hp =>
          obtain ⟨hls, rfl⟩ := Prod.mk.inj h
          rw [← Except.ok.inj hls]
          refine ⟨by simp, by simp, ?_⟩
          intro op' precedence' hop'
          rw [hop, Option.some.injEq, Prod.mk.injEq] at hop'
          rw [← hop'.2]
          exact Bool.eq_false_iff.mpr hp

/-- Links that pass a stricter test may be read first. -/
theorem links_eq_append (ops : OpTable) {p q : Int32 → Bool} (hpq : ∀ x, q x = true → p x = true)
    (c : Cursor τ) :
    c.links ops p =
      (c.links ops q).andThen fun ls d =>
        (d.links ops p).andThen fun ls' e => (.ok (ls ++ ls'), e) := by
  induction hsize : c.left using Nat.strongRecOn generalizing c with
  | ind size ih =>
      rw [links_eq ops q]
      split
      next hop => simp
      next op precedence hop =>
        split
        next hq =>
          simp only [links_eq ops p c, hop, hpq precedence hq, ↓reduceIte, Outcome.andThen_assoc,
            Outcome.ok_andThen]
          apply Outcome.andThen_congr
          intro operand d hoperand
          have hadvance := left_advance_lt (OpTable.operator?_eq_some_iff.mp hop).1
          have hlt := left_lt_of_primary_ok hoperand
          rw [ih d.left (by omega) d rfl]
          simp [Outcome.andThen_assoc]
        next hq => simp

/-- Below another word there is room for one more. -/
theorem toInt_succ_of_lt {x y : Int32} (h : x < y) : (x + 1).toInt = x.toInt + 1 := by
  have hmax := y.toInt_lt
  have hmin := x.le_toInt
  rw [Int32.lt_iff_toInt_lt] at h
  rw [Int32.toInt_add, Int32.toInt_one, Int.bmod_eq_of_le] <;> omega

/-- Where a tighter operator stands, one more than a precedence is a bound for the operators above it. -/
theorem succ_le_iff_lt {x y z : Int32} (h : x < y) : x + 1 ≤ z ↔ x < z := by
  rw [Int32.le_iff_toInt_le, Int32.lt_iff_toInt_lt, toInt_succ_of_lt h]
  omega

/-- An operand has the tighter links behind it before it is joined. -/
theorem tighter_eq_links {ops : OpTable} {precedence : Int32} {operand : Expr} {c : Cursor τ}
    (h : c.climb ops (precedence + 1) operand =
      (c.links ops (precedence + 1 ≤ ·)).andThen fun ls d => (.ok (Link.tree operand ls), d)) :
    (if ops.bindsTighter precedence c.current then c.climb ops (precedence + 1) operand
      else (.ok operand, c)) =
      (c.links ops (precedence < ·)).andThen fun ls d => (.ok (Link.tree operand ls), d) := by
  unfold OpTable.bindsTighter
  split
  next op other hop =>
    split
    next hlt =>
      have hbound : (fun x : Int32 => decide (precedence + 1 ≤ x)) = fun x => decide (precedence < x) := by
        funext x
        rw [decide_eq_decide]
        exact succ_le_iff_lt (of_decide_eq_true hlt)
      rw [h, hbound]
    next hle =>
      rw [links_of_stop]
      · simp
      · intro op' other' hop'
        rw [hop, Option.some.injEq, Prod.mk.injEq] at hop'
        rw [← hop'.2]
        exact Bool.eq_false_iff.mpr hle
  next hop =>
    rw [links_of_stop]
    · simp
    · intro op' other' hop'
      rw [hop] at hop'
      simp at hop'

/-- Climbing reads the links down to the least precedence and joins them to their tree. -/
theorem climb_eq_links (ops : OpTable) (least : Int32) (lhs : Expr) (c : Cursor τ) :
    c.climb ops least lhs =
      (c.links ops (least ≤ ·)).andThen fun ls d => (.ok (Link.tree lhs ls), d) := by
  induction hsize : c.left using Nat.strongRecOn generalizing c least lhs with
  | ind size ih =>
      rw [climb_eq]
      split
      next hop =>
        rw [links_of_stop (by simp [hop])]
        simp
      next op precedence hop =>
        split
        next hlt =>
          rw [links_of_stop]
          · simp
          · intro op' precedence' hop'
            rw [hop, Option.some.injEq, Prod.mk.injEq] at hop'
            rw [← hop'.2]
            exact decide_eq_false (Int32.not_le.mpr hlt)
        next hle =>
          have hleast : least ≤ precedence := Int32.not_lt.mp hle
          rw [links_of_operator hop (decide_eq_true hleast), Outcome.andThen_assoc]
          apply Outcome.andThen_congr
          intro operand d hoperand
          have hadvance := left_advance_lt (OpTable.operator?_eq_some_iff.mp hop).1
          have hprimary := left_lt_of_primary_ok hoperand
          -- the row from `d` on is the tighter links, and then what the next round reads
          have habove (x : Int32) (hx : decide (precedence < x) = true) : decide (least ≤ x) = true :=
            decide_eq_true (Int32.le_trans hleast (Int32.le_of_lt (of_decide_eq_true hx)))
          rw [tighter_eq_links (ih d.left (by omega) _ _ d rfl), links_eq_append ops habove d,
            Outcome.andThen_assoc, Outcome.andThen_assoc, Outcome.andThen_assoc]
          apply Outcome.andThen_congr
          intro tight e htight
          have hle := left_links_le ops (precedence < ·) d
          rw [htight] at hle
          dsimp only at hle
          simp only [Outcome.ok_andThen, Outcome.andThen_assoc]
          rw [ih e.left (by omega) _ _ e rfl]
          apply Outcome.andThen_congr
          intro rest f hrest
          obtain ⟨htighter, _, hstop⟩ := links_spec htight
          have hhead : ∀ k ∈ rest.head?, k.precedence ≤ precedence := by
            intro k hk
            have hfails := hstop k.op k.precedence ((links_spec hrest).2.1 k hk)
            exact Int32.not_lt.mp (of_decide_eq_false hfails)
          have hjoin := Link.tree_join lhs ⟨op, precedence, operand⟩
            (fun k hk => of_decide_eq_true (htighter k hk)) hhead
          rw [hjoin, List.cons_append]

/-- An expression is a primary, the links behind it, and the tree of both. -/
theorem expr_eq_links (ops : OpTable) (c : Cursor τ) :
    c.expr ops =
      (c.primary ops).andThen fun first d =>
        (d.links ops (0 ≤ ·)).andThen fun ls e => (.ok (Link.tree first ls), e) := by
  rw [expr_eq]
  apply Outcome.andThen_congr
  intro first d _
  exact climb_eq_links ops 0 first d

/-- Parses a primary and the links behind it, and leaves open which link binds tighter. -/
def chain (ops : OpTable) (c : Cursor τ) : Outcome τ (Expr × List Link) :=
  (c.primary ops).andThen fun first d =>
    (d.links ops (0 ≤ ·)).andThen fun ls e => (.ok (first, ls), e)

/-- Precedence climbing is reading a chain and building its tree, at every cursor and for every table: it
succeeds where the chain is read, stops at the same cursor and fails with the same error. The tree is the
one that the rule of the rightmost least precedence gives, and no other. The bound of a nested climb, which
is asked for only in front of a tighter operator, is one more than a precedence without wrapping. -/
theorem expr_eq_chain (ops : OpTable) (c : Cursor τ) :
    c.expr ops = ((c.chain ops).andThen fun read d => (.ok (Link.tree read.1 read.2), d)) ∧
      (∀ first ls e, Link.Denotes first ls e ↔ e = Link.tree first ls) ∧
      ∀ (precedence : Int32) (d : Cursor τ), ops.bindsTighter precedence d.current = true →
        (precedence + 1).toInt = precedence.toInt + 1 := by
  refine ⟨?_, ?_, ?_⟩
  · rw [expr_eq_links, chain, Outcome.andThen_assoc]
    simp only [Outcome.andThen_assoc, Outcome.ok_andThen]
  · intro first ls e
    constructor
    · intro h
      exact h.eq_tree
    · rintro rfl
      exact Link.denotes_tree first ls
  · intro precedence d htighter
    unfold OpTable.bindsTighter at htighter
    split at htighter
    next op other hop => exact toInt_succ_of_lt (of_decide_eq_true htighter)
    next => simp at htighter

/-- Facts about all four productions by one induction: what a production calls without a token in
between is at the same cursor or behind it, and all else has fewer tokens left. -/
theorem production_induction {P L E A : Cursor τ → Prop}
    (primary : ∀ c, (∀ d, d.left < c.left → E d ∧ A d) → P c)
    (links : ∀ c, (∀ d, d.left < c.left → P d ∧ L d) → L c)
    (expr : ∀ c, P c → (∀ d, d.left ≤ c.left → L d) → E c)
    (arguments : ∀ c, E c → (∀ d, d.left < c.left → A d) → A c) :
    ∀ c, P c ∧ L c ∧ E c ∧ A c := by
  intro c
  induction hsize : c.left using Nat.strongRecOn generalizing c with
  | ind size ih =>
      subst hsize
      have hP (d : Cursor τ) (hd : d.left ≤ c.left) : P d :=
        primary d fun e he => (ih e.left (by omega) e rfl).2.2
      have hL (d : Cursor τ) (hd : d.left ≤ c.left) : L d :=
        links d fun e he => ⟨hP e (by omega), (ih e.left (by omega) e rfl).2.1⟩
      have hE : E c := expr c (hP c (Nat.le_refl _)) hL
      exact ⟨hP c (Nat.le_refl _), hL c (Nat.le_refl _), hE,
        arguments c hE fun e he => (ih e.left he e rfl).2.2.2⟩

/-- The current token is the first of those in front of a cursor. -/
theorem head?_tokens (c : Cursor τ) : c.tokens.head? = c.current := by
  cases h : c.current with
  | none => rw [tokens_of_current_none h, List.head?_nil]
  | some k => rw [tokens_of_current_some h, List.head?_cons]

/-- The token behind some tokens is the first of the next ones, or else the current one after them. -/
theorem current_eq_or {c d : Cursor τ} {ks : List Token} (h : c.tokens = ks ++ d.tokens) :
    c.current = ks.head?.or d.current := by
  rw [← head?_tokens, h, List.head?_append, head?_tokens]

/-- The tokens in front of a cursor say what its current token is and what is behind it. -/
theorem of_tokens_eq_cons {c : Cursor τ} {k : Token} {ks : List Token} (h : c.tokens = k :: ks) :
    c.current = some k ∧ c.advance.tokens = ks := by
  constructor
  · rw [← head?_tokens, h, List.head?_cons]
  · rw [tokens_advance, h, List.tail_cons]

end Cursor

end ExprLang
