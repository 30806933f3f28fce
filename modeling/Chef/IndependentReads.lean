import Chef.IndependentSolver

namespace Chef
open Foundations List Chef.Expr UpdateNode Or Search
def Expr.dependencies : Expr → List Expr
  | .read _ head index => index :: head.exprs
  | e => e.operands

theorem Expr.mem_subs_self (e : Expr) : e ∈ e.subs := by
  cases e <;> rw [subs] <;> exact mem_cons_self

theorem UpdateNode.exprs_subs : (un : UpdateNode) → ∀ k ∈ un.exprs, k ∈ un.subs
  | .null, k, hk => absurd hk not_mem_nil
  | .node index value next, k, hk => by
    rw [exprs, mem_cons, mem_cons] at hk
    rw [subs, mem_append, mem_append]
    obtain rfl | rfl | hk := hk
    · exact inl k.mem_subs_self
    · exact inr (inl k.mem_subs_self)
    · exact inr (inr (next.exprs_subs k hk))

theorem Expr.dependencies_subs (e : Expr) : ∀ k ∈ e.dependencies, k ∈ e.subs := by
  have hse := mem_subs_self
  cases e with
  | read root head index =>
    intro k hk
    rw [subs, mem_cons, mem_append]
    obtain rfl | hk := mem_cons.1 hk
    · exact inr (inl (hse k))
    · exact inr (inr (head.exprs_subs k hk))
  | _ => simp [dependencies, operands, subs, hse]

def PartsClosed (l : List Expr) : Prop := ∀ x ∈ l, ∀ y ∈ x.subs, y ∈ l

theorem PartsClosed.append (h : PartsClosed l) (h' : PartsClosed l') : PartsClosed (l ++ l') := by
  intro x hx y hy
  obtain hx | hx := mem_append.1 hx
  · exact mem_append_left _ (h x hx y hy)
  · exact mem_append_right _ (h' x hx y hy)

theorem PartsClosed.cons (h : PartsClosed l) (he : e.subs = e :: l) : PartsClosed e.subs := by
  intro x hx y hy
  rw [he] at hx
  obtain rfl | hx := mem_cons.1 hx
  · exact hy
  · rw [he]
    exact mem_cons_of_mem _ (h x hx y hy)

mutual
theorem Expr.subs_closed : (e : Expr) → PartsClosed e.subs
  | .constant _ _ =>
    PartsClosed.cons (l := []) (fun _ hx => absurd hx not_mem_nil) (by rw [Expr.subs])
  | .notOptimized src | .zext src _ | .sext src _ | .extract src _ _ | .not src =>
    src.subs_closed.cons (by rw [Expr.subs])
  | .read _ head index => (index.subs_closed.append head.subs_closed).cons (by rw [Expr.subs])
  | .select c t f =>
    (c.subs_closed.append (t.subs_closed.append f.subs_closed)).cons (by rw [Expr.subs])
  | .concat l r | .arithmetic _ l r | .compare _ l r =>
    (l.subs_closed.append r.subs_closed).cons (by rw [Expr.subs])

theorem UpdateNode.subs_closed : (un : UpdateNode) → PartsClosed un.subs
  | .null => fun _ hx => absurd hx not_mem_nil
  | .node index value next => by
    exact index.subs_closed.append (value.subs_closed.append next.subs_closed)

end

def ReadFound (e : Expr) (t : FoundReads) : Prop :=
  ∀ root head index, e = .read root head index → ⟨root, head, index⟩ ∈ t.results

theorem expandReads_dependencies (e : Expr) (t : FoundReads) :
    ∀ k ∈ (expandReads true e t).1, k ∈ e.dependencies := by
  intro k hk
  cases e with
  | read root head index =>
    rw [expandReads] at hk
    split at hk
    · exact hk
    · exact mem_cons.2 (inl (mem_singleton.1 hk))
  | _ => exact hk

theorem expandReads_expands :
    Expands isConstant (expandReads true) dependencies ReadFound fun t V => ∀ un ∈ t.updates,
    ∀ k ∈ un.exprs, V k where
  done e t := by
    intro root head index he
    rw [he, expandReads]
    split <;> exact mem_append_cons_self
  keeps e y t hy := by
    intro root head index he
    have hf := hy root head index he
    cases e with
    | read root' head' index' =>
      rw [expandReads]
      split <;> exact mem_append_left _ hf
    | _ => exact hf
  covers e t V hV := by
    intro k hk
    cases e with
    | read root head index =>
      rw [expandReads]
      split
      · exact inl hk
      next hw =>
        have hm : head ∈ t.updates := by simpa using hw
        obtain rfl | hk := mem_cons.1 hk
        · exact inl mem_cons_self
        · exact inr (hV head hm k hk)
    | _ => exact inl hk
  memo e t V V' hV hmo hks := by
    have ho : ∀ un ∈ t.updates, ∀ k ∈ un.exprs, V' k := fun un hun k hk => hmo k (hV un hun k hk)
    cases e with
    | read root head index =>
      rw [expandReads] at hks ⊢
      simp only at hks ⊢
      split_ifs at hks ⊢
      · intro un hun k hk
        obtain rfl | hun := mem_cons.1 hun
        · exact hks k (mem_cons_of_mem _ hk)
        · exact ho un hun k hk
      · exact ho
    | _ => exact ho

/-- The search ends, and comes to every read. -/
theorem findReads_spec (e : Expr) :
    ∃ (reads : List ReadExpr) (V : List Expr), findReads e true = some reads ∧
      (e.isConstant = true ∨ e ∈ V) ∧
      ∀ x ∈ V, (∀ root head index, x = .read root head index → ⟨root, head, index⟩ ∈ reads) ∧
        ∀ k ∈ x.dependencies, k.isConstant = true ∨ k ∈ V := by
  have hvi := visits_one isConstant ⟨[], [], (⟨[], []⟩ : FoundReads)⟩ e
  have hsrch : Searching isConstant dependencies ReadFound
      (fun t V => ∀ un ∈ t.updates, ∀ k ∈ un.exprs, V k) e.subs
      (visit isConstant ⟨[], [], ⟨[], []⟩⟩ e) := by
    refine ⟨hvi.nodup nodup_nil, hvi.onStack fun _ h => h, ?_, ?_, ?_⟩
    · intro x hx
      obtain hx | ⟨-, hx⟩ := hvi.fresh x hx
      · exact absurd hx not_mem_nil
      · rw [mem_singleton.1 hx]
        exact e.mem_subs_self
    · rw [hvi.extra]
      exact fun _ h => absurd h not_mem_nil
    · intro x hx
      obtain hx | ⟨hx, -⟩ := hvi.fresh x hx
      · exact absurd hx not_mem_nil
      · exact inl hx
  have hc : ∀ x ∈ e.subs, ∀ t, ∀ k ∈ (expandReads true x t).1, k ∈ e.subs := fun x hx t k hk =>
      e.subs_closed x hx k (x.dependencies_subs k (expandReads_dependencies x t k hk))
  have hfu : ∀ s : Search Expr FoundReads, s.visited.length + 0 = 0 + s.stack.length →
      e.subs.length + s.stack.length < s.visited.length + (e.subs.length + 1) := by
    intro s hs
    omega
  obtain ⟨s, hr, hv, hd⟩ := run_spec expandReads_expands hc hsrch (hfu _ hvi.length)
  refine ⟨s.extra.results, s.visited, ?_, ?_, hd⟩
  · rw [findReads, hr]
    rfl
  · obtain he | he := hvi.seen e mem_cons_self
    · exact inl he
    · exact inr (hv e he)

end Chef
