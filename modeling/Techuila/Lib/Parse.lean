import Mathlib.Data.List.Basic

/-!
# Parsers of tokens

A parser takes tokens off the front of a list, or fails: an exception is thrown, or there is no
token where one is looked at, or a loop does not stop within its fuel.

* `repeat_`, `recur`: a `while (true)` loop and a recursion, with fuel for one step a token.
* `Tame`: below a length, two parsers agree, take a number of tokens, and stay before the end
  token of a list. The rules for `Tame` follow the syntax of parsers.
* `recur_eq`, `repeat_eq`: where every step takes a token, the fuel is enough.
* `Reads`: what the tokens are that a parser has taken.
-/

namespace Techuila

inductive ParseError where
  | thrown (message : String)
  | outOfRange
  | outOfFuel
  deriving DecidableEq, Repr

/-- A parser: its result and the tokens that are left. -/
def Parse (τ α : Type) := List τ → Except ParseError (α × List τ)

namespace Parse

variable {τ α β σ ρ : Type}

protected def pure (x : α) : Parse τ α := fun ts => .ok (x, ts)

protected def bind (p : Parse τ α) (q : α → Parse τ β) : Parse τ β := fun ts =>
  match p ts with
  | .error e => .error e
  | .ok (x, rest) => q x rest

instance : Monad (Parse τ) where
  pure := Parse.pure
  bind := Parse.bind

def fail (message : String) : Parse τ α := fun _ => .error (.thrown message)

/-- The current token. -/
def peek : Parse τ τ
  | [] => .error .outOfRange
  | t :: ts => .ok (t, t :: ts)

/-- The token behind the current one; the last token has itself behind it. -/
def peekNext : Parse τ τ
  | [] => .error .outOfRange
  | [t] => .ok (t, [t])
  | t :: u :: ts => .ok (u, t :: u :: ts)

/-- The current token, which is taken. -/
def advance : Parse τ τ
  | [] => .error .outOfRange
  | t :: ts => .ok (t, ts)

/-- Where the current token satisfies `c`, it is taken. -/
def ifNext (c : τ → Bool) (yes : τ → Parse τ α) (no : Parse τ α) : Parse τ α := do
  let t ← peek
  if c t then
    let t ← advance
    yes t
  else no

/-- A loop, whose body goes on with a state or ends with a result. -/
def loop (body : σ → Parse τ (σ ⊕ ρ)) : (fuel : Nat) → σ → Parse τ ρ
  | 0, _ => fun _ => .error .outOfFuel
  | fuel + 1, s => do
    match ← body s with
    | .inl s => loop body fuel s
    | .inr r => pure r

def repeat_ (body : σ → Parse τ (σ ⊕ ρ)) (s : σ) : Parse τ ρ := fun ts =>
  loop body (ts.length + 1) s ts

def fix (F : Parse τ α → Parse τ α) : (fuel : Nat) → Parse τ α
  | 0 => fun _ => .error .outOfFuel
  | fuel + 1 => F (fix F fuel)

/-- The recursive parser `p` with `p = F p`. -/
def recur (F : Parse τ α → Parse τ α) : Parse τ α := fun ts => fix F (ts.length + 1) ts

/-! ## Results -/

section Results

variable {p : Parse τ α} {q : α → Parse τ β} {ts rest : List τ}

theorem pure_apply (x : α) (ts : List τ) : (pure x : Parse τ α) ts = .ok (x, ts) := rfl

theorem bind_eq_of_ok {x : α} (h : p ts = .ok (x, rest)) : (p >>= q) ts = q x rest := by
  show Parse.bind p q ts = _
  rw [Parse.bind, h]

theorem bind_eq_of_error {e : ParseError} (h : p ts = .error e) : (p >>= q) ts = .error e := by
  show Parse.bind p q ts = _
  rw [Parse.bind, h]

theorem bind_eq_ok {y : β} : (p >>= q) ts = .ok (y, rest) ↔
    ∃ x mid, p ts = .ok (x, mid) ∧ q x mid = .ok (y, rest) := by
  cases h : p ts with
  | error e => rw [bind_eq_of_error h]; simp
  | ok r =>
    obtain ⟨x, mid⟩ := r
    rw [bind_eq_of_ok h]
    simp

theorem pure_eq_ok {x y : α} : (pure x : Parse τ α) ts = .ok (y, rest) ↔ x = y ∧ ts = rest := by
  rw [pure_apply]
  simp

theorem fail_eq_ok {m : String} {x : α} : (fail m : Parse τ α) ts = .ok (x, rest) ↔ False := by
  simp [fail]

theorem peek_eq_ok {t : τ} : peek ts = .ok (t, rest) ↔ ts = rest ∧ ∃ ts', ts = t :: ts' := by
  cases ts with
  | nil => simp [peek]
  | cons u ts =>
    simp only [peek, Except.ok.injEq, Prod.mk.injEq, List.cons.injEq]
    constructor
    · rintro ⟨rfl, rfl⟩; exact ⟨rfl, ts, rfl, rfl⟩
    · rintro ⟨rfl, _, rfl, -⟩; exact ⟨rfl, rfl⟩

theorem peekNext_eq_ok {t : τ} (h : peekNext ts = .ok (t, rest)) : ts = rest := by
  match ts, h with
  | [], h => cases h
  | [_], h => cases h; rfl
  | _ :: _ :: _, h => cases h; rfl

theorem peek_cons (t : τ) (ts : List τ) : peek (t :: ts) = .ok (t, t :: ts) := rfl

theorem ifNext_cons (c : τ → Bool) (yes : τ → Parse τ α) (no : Parse τ α) (t : τ) (ts : List τ) :
    ifNext c yes no (t :: ts) = if c t then yes t ts else no (t :: ts) := by
  show (if c t then (advance >>= yes : Parse τ α) else no) (t :: ts) = _
  split <;> rfl

theorem ifNext_eq_ok {c : τ → Bool} {yes : τ → Parse τ α} {no : Parse τ α} {x : α} :
    ifNext c yes no ts = .ok (x, rest) ↔
      (∃ t ts', ts = t :: ts' ∧ c t = true ∧ yes t ts' = .ok (x, rest)) ∨
      (∃ t ts', ts = t :: ts' ∧ c t = false ∧ no ts = .ok (x, rest)) := by
  cases ts with
  | nil => simp [ifNext, bind_eq_of_error (show peek ([] : List τ) = .error .outOfRange from rfl)]
  | cons t ts =>
    rw [ifNext_cons]
    cases hc : c t <;> simp [hc]

end Results

/-! ## Tame parsers -/

/-- The last token of the list is its only end token. -/
def Terminated (isEnd : τ → Prop) (ts : List τ) : Prop :=
  ∃ front e, ts = front ++ [e] ∧ isEnd e ∧ ∀ t ∈ front, ¬ isEnd t

theorem Terminated.tail {isEnd : τ → Prop} {t : τ} {ts : List τ} (h : Terminated isEnd (t :: ts))
    (ht : ¬ isEnd t) : Terminated isEnd ts := by
  obtain ⟨front, e, heq, he, hfront⟩ := h
  cases front with
  | nil =>
    cases heq
    exact absurd he ht
  | cons u front =>
    cases heq
    exact ⟨front, e, rfl, he, fun v hv => hfront v (List.mem_cons_of_mem _ hv)⟩

theorem Terminated.ne_nil {isEnd : τ → Prop} {ts : List τ} (h : Terminated isEnd ts) :
    ∃ t ts', ts = t :: ts' := by
  obtain ⟨front, e, rfl, -⟩ := h
  cases front with
  | nil => exact ⟨e, [], rfl⟩
  | cons u front => exact ⟨u, _, rfl⟩

/-- On a list that ends with its end token, the parser throws, or it returns before that token. -/
def SafeAt (isEnd : τ → Prop) (p : Parse τ α) (ts : List τ) : Prop :=
  (∃ m, p ts = .error (.thrown m)) ∨ ∃ x rest, p ts = .ok (x, rest) ∧ Terminated isEnd rest

/-- On lists shorter than `n`, `p` is `q`, takes at least `k` tokens where it returns, and stays
before the end token. -/
structure Tame (isEnd : τ → Prop) (k n : Nat) (p q : Parse τ α) : Prop where
  agree : ∀ ts, ts.length < n → p ts = q ts
  takes : ∀ ts x rest, ts.length < n → p ts = .ok (x, rest) →
    ∃ used, ts = used ++ rest ∧ k ≤ used.length
  safe : ∀ ts, ts.length < n → Terminated isEnd ts → SafeAt isEnd p ts

namespace Tame

variable {isEnd : τ → Prop} {j k m n : Nat}

theorem mono {p q : Parse τ α} (h : Tame isEnd k n p q) (hj : j ≤ k) (hm : m ≤ n) :
    Tame isEnd j m p q where
  agree ts hts := h.agree ts (Nat.lt_of_lt_of_le hts hm)
  takes ts x rest hts he := by
    obtain ⟨used, hu, hk⟩ := h.takes ts x rest (Nat.lt_of_lt_of_le hts hm) he
    exact ⟨used, hu, Nat.le_trans hj hk⟩
  safe ts hts := h.safe ts (Nat.lt_of_lt_of_le hts hm)

/-- There is no list to be about. -/
theorem zero (p q : Parse τ α) : Tame isEnd k 0 p q :=
  ⟨fun _ h => absurd h (Nat.not_lt_zero _), fun _ _ _ h => absurd h (Nat.not_lt_zero _),
    fun _ h => absurd h (Nat.not_lt_zero _)⟩

theorem shorter {p q : Parse τ α} (h : Tame isEnd 1 n p q) {ts rest : List τ} {x : α}
    (hts : ts.length < n) (he : p ts = .ok (x, rest)) : rest.length < ts.length := by
  obtain ⟨used, rfl, hk⟩ := h.takes ts x rest hts he
  rw [List.length_append]
  omega

theorem pure (x : α) : Tame isEnd 0 n (pure x : Parse τ α) (pure x) where
  agree _ _ := rfl
  takes ts y rest _ he := by
    obtain ⟨-, rfl⟩ := pure_eq_ok.mp he
    exact ⟨[], rfl, (Nat.le_refl _)⟩
  safe ts _ ht := .inr ⟨x, ts, rfl, ht⟩

theorem fail (message : String) : Tame isEnd k n (Parse.fail message : Parse τ α)
    (Parse.fail message) where
  agree _ _ := rfl
  takes _ _ _ _ he := (fail_eq_ok.mp he).elim
  safe _ _ _ := .inl ⟨message, rfl⟩

theorem peek : Tame isEnd 0 n (Parse.peek : Parse τ τ) Parse.peek where
  agree _ _ := rfl
  takes ts t rest _ he := ⟨[], (peek_eq_ok.mp he).1, (Nat.le_refl _)⟩
  safe ts _ ht := by
    obtain ⟨t, ts', rfl⟩ := ht.ne_nil
    exact .inr ⟨t, _, rfl, ht⟩

theorem peekNext : Tame isEnd 0 n (Parse.peekNext : Parse τ τ) Parse.peekNext where
  agree _ _ := rfl
  takes _ _ _ _ he := ⟨[], peekNext_eq_ok he, (Nat.le_refl _)⟩
  safe ts _ ht := by
    match ts, ht with
    | [], ht => obtain ⟨_, _, h⟩ := ht.ne_nil; cases h
    | [t], ht => exact .inr ⟨t, _, rfl, ht⟩
    | _ :: u :: _, ht => exact .inr ⟨u, _, rfl, ht⟩

theorem bind {p p' : Parse τ α} {q q' : α → Parse τ β} (hp : Tame isEnd j n p p')
    (hq : ∀ x, Tame isEnd k (n - j) (q x) (q' x)) :
    Tame isEnd (j + k) n (p >>= q) (p' >>= q') where
  agree ts hts := by
    cases h : p ts with
    | error e => rw [bind_eq_of_error h, bind_eq_of_error ((hp.agree ts hts).symm.trans h)]
    | ok r =>
      obtain ⟨x, rest⟩ := r
      rw [bind_eq_of_ok h, bind_eq_of_ok ((hp.agree ts hts).symm.trans h)]
      obtain ⟨used, rfl, hj⟩ := hp.takes ts x rest hts h
      rw [List.length_append] at hts
      exact (hq x).agree rest (by omega)
  takes ts y rest hts he := by
    obtain ⟨x, mid, h₁, h₂⟩ := bind_eq_ok.mp he
    obtain ⟨used, rfl, hj⟩ := hp.takes ts x mid hts h₁
    rw [List.length_append] at hts
    obtain ⟨more, rfl, hk⟩ := (hq x).takes mid y rest (by omega) h₂
    exact ⟨used ++ more, (List.append_assoc _ _ _).symm, by rw [List.length_append]; omega⟩
  safe ts hts ht := by
    rcases hp.safe ts hts ht with ⟨m, h⟩ | ⟨x, rest, h, hr⟩
    · exact .inl ⟨m, bind_eq_of_error h⟩
    · obtain ⟨used, rfl, hj⟩ := hp.takes ts x rest hts h
      rw [List.length_append] at hts
      have := (hq x).safe rest (by omega) hr
      rwa [SafeAt, ← bind_eq_of_ok (q := q) h] at this

/-- A bind whose tokens are counted loosely. -/
theorem bind₀ {p p' : Parse τ α} {q q' : α → Parse τ β} (hp : Tame isEnd 0 n p p')
    (hq : ∀ x, Tame isEnd k n (q x) (q' x)) : Tame isEnd k n (p >>= q) (p' >>= q') :=
  (hp.bind hq).mono (Nat.le_add_left _ _) (Nat.le_refl _)

theorem ite {c : Prop} [Decidable c] {p p' q q' : Parse τ α} (hp : c → Tame isEnd k n p p')
    (hq : ¬ c → Tame isEnd k n q q') :
    Tame isEnd k n (if c then p else q) (if c then p' else q') := by
  by_cases h : c
  · rw [if_pos h, if_pos h]; exact hp h
  · rw [if_neg h, if_neg h]; exact hq h

theorem ifNext {c : τ → Bool} (hc : ∀ t, c t = true → ¬ isEnd t) {yes yes' : τ → Parse τ α}
    {no no' : Parse τ α} (hyes : ∀ t, Tame isEnd j (n - 1) (yes t) (yes' t)) (hk : k ≤ j + 1)
    (hno : Tame isEnd k n no no') :
    Tame isEnd k n (Parse.ifNext c yes no) (Parse.ifNext c yes' no') where
  agree ts hts := by
    cases ts with
    | nil => rfl
    | cons t ts =>
      rw [ifNext_cons, ifNext_cons]
      rw [List.length_cons] at hts
      split
      · exact (hyes t).agree ts (by omega)
      · exact hno.agree _ hts
  takes ts x rest hts he := by
    rcases ifNext_eq_ok.mp he with ⟨t, ts', rfl, -, h⟩ | ⟨_, _, -, -, h⟩
    · rw [List.length_cons] at hts
      obtain ⟨used, rfl, hj⟩ := (hyes t).takes ts' x rest (by omega) h
      exact ⟨t :: used, rfl, by rw [List.length_cons]; omega⟩
    · exact hno.takes ts x rest hts h
  safe ts hts ht := by
    obtain ⟨t, ts', rfl⟩ := ht.ne_nil
    rw [SafeAt, ifNext_cons]
    split
    · rename_i h
      rw [List.length_cons] at hts
      exact (hyes t).safe ts' (by omega) (ht.tail (hc t h))
    · exact hno.safe _ hts ht

/-- Where every step that goes on takes a token, the loop stops. -/
theorem repeat_ {body body' : σ → Parse τ (σ ⊕ ρ)}
    (h : ∀ s, Tame isEnd k n (body s) (body' s))
    (hgo : ∀ s ts s' rest, ts.length < n → body s ts = .ok (.inl s', rest) →
      rest.length < ts.length) (s : σ) :
    Tame isEnd k n (Parse.repeat_ body s) (Parse.repeat_ body' s) := by
  have hloop : ∀ fuel s, Tame isEnd k (min n fuel) (loop body fuel s) (loop body' fuel s) := by
    intro fuel
    induction fuel with
    | zero => exact fun s => (zero _ _).mono (Nat.le_refl k) (Nat.min_le_right n 0)
    | succ fuel ih =>
      intro s
      refine ⟨fun ts hts => ?_, fun ts x rest hts he => ?_, fun ts hts ht => ?_⟩
      · have hts' : ts.length < n := by omega
        cases hb : body s ts with
        | error e =>
          rw [loop, loop, bind_eq_of_error hb,
            bind_eq_of_error (((h s).agree ts hts').symm.trans hb)]
        | ok r =>
          obtain ⟨r, rest⟩ := r
          rw [loop, loop, bind_eq_of_ok hb, bind_eq_of_ok (((h s).agree ts hts').symm.trans hb)]
          cases r with
          | inl s' =>
            have := hgo s ts s' rest hts' hb
            exact (ih s').agree rest (by omega)
          | inr x => rfl
      · have hts' : ts.length < n := by omega
        rw [loop] at he
        obtain ⟨r, mid, hb, hr⟩ := bind_eq_ok.mp he
        obtain ⟨used, rfl, hk⟩ := (h s).takes ts r mid hts' hb
        cases r with
        | inl s' =>
          have hlt := hgo s _ s' mid hts' hb
          obtain ⟨more, rfl, -⟩ := (ih s').takes mid x rest (by omega) hr
          exact ⟨used ++ more, (List.append_assoc _ _ _).symm, by
            rw [List.length_append]; omega⟩
        | inr y =>
          obtain ⟨rfl, rfl⟩ := pure_eq_ok.mp hr
          exact ⟨used, rfl, hk⟩
      · have hts' : ts.length < n := by omega
        rw [SafeAt, loop]
        rcases (h s).safe ts hts' ht with ⟨m, hb⟩ | ⟨r, rest, hb, hr⟩
        · exact .inl ⟨m, bind_eq_of_error hb⟩
        · rw [bind_eq_of_ok hb]
          cases r with
          | inl s' =>
            have := hgo s ts s' rest hts' hb
            exact (ih s').safe rest (by omega) hr
          | inr x => exact .inr ⟨x, rest, rfl, hr⟩
  exact ⟨fun ts hts => (hloop _ s).agree ts (by omega),
    fun ts x rest hts => (hloop _ s).takes ts x rest (by omega),
    fun ts hts => (hloop _ s).safe ts (by omega)⟩

/-- Where every step takes a token. -/
theorem repeat_one {body body' : σ → Parse τ (σ ⊕ ρ)}
    (h : ∀ s, Tame isEnd 1 n (body s) (body' s)) (s : σ) :
    Tame isEnd 1 n (Parse.repeat_ body s) (Parse.repeat_ body' s) :=
  repeat_ h (fun s _ _ _ hts he => (h s).shorter hts he) s

theorem fix {F F' : Parse τ α → Parse τ α}
    (h : ∀ m p q, m < n → Tame isEnd k m p q → Tame isEnd k (m + 1) (F p) (F' q)) {fuel : Nat}
    (hle : fuel ≤ n) : Tame isEnd k fuel (fix F fuel) (fix F' fuel) := by
  induction fuel with
  | zero => exact zero _ _
  | succ fuel ih => exact h fuel _ _ hle (ih (Nat.le_of_succ_le hle))

/-- Where the recursion goes on to shorter lists, it stops. -/
theorem recur {F F' : Parse τ α → Parse τ α}
    (h : ∀ m p q, m < n → Tame isEnd k m p q → Tame isEnd k (m + 1) (F p) (F' q)) :
    Tame isEnd k n (Parse.recur F) (Parse.recur F') :=
  ⟨fun ts hts => (fix h hts).agree ts (Nat.lt_succ_self _),
    fun ts x rest hts => (fix h hts).takes ts x rest (Nat.lt_succ_self _),
    fun ts hts => (fix h hts).safe ts (Nat.lt_succ_self _)⟩

end Tame

/-! ## Enough fuel -/

/-- A recursion that goes on to shorter lists satisfies its equation. -/
theorem recur_eq {isEnd : τ → Prop} {k : Nat} {F : Parse τ α → Parse τ α}
    (h : ∀ m p q, Tame isEnd k m p q → Tame isEnd k (m + 1) (F p) (F q)) :
    recur F = F (recur F) := by
  have hsucc : ∀ fuel, Tame isEnd k fuel (fix F fuel) (fix F (fuel + 1)) := by
    intro fuel
    induction fuel with
    | zero => exact .zero _ _
    | succ fuel ih => exact h fuel _ _ ih
  have hmore : ∀ (ts : List τ) (more fuel : Nat), ts.length < fuel →
      fix F fuel ts = fix F (fuel + more) ts := by
    intro ts more
    induction more with
    | zero => exact fun _ _ => rfl
    | succ more ih =>
      exact fun fuel hf => (ih fuel hf).trans ((hsucc (fuel + more)).agree ts (by omega))
  funext ts
  have hself : Tame isEnd k ts.length (fix F ts.length) (recur F) := by
    have hfix : Tame isEnd k ts.length (fix F ts.length) (fix F ts.length) :=
      Tame.fix (fun m p q _ => h m p q) (Nat.le_refl _)
    refine ⟨fun ts' hlt => ?_, hfix.takes, hfix.safe⟩
    obtain ⟨more, hmore'⟩ := Nat.exists_eq_add_of_le (show ts'.length + 1 ≤ ts.length from hlt)
    rw [hmore']
    exact (hmore ts' more (ts'.length + 1) (Nat.lt_succ_self _)).symm
  exact (h ts.length _ _ hself).agree ts (Nat.lt_succ_self _)

theorem loop_more {body : σ → Parse τ (σ ⊕ ρ)}
    (hgo : ∀ s ts s' rest, body s ts = .ok (.inl s', rest) → rest.length < ts.length)
    (fuel : Nat) : ∀ s ts, ts.length < fuel → loop body fuel s ts = loop body (fuel + 1) s ts := by
  induction fuel with
  | zero => exact fun _ _ h => absurd h (Nat.not_lt_zero _)
  | succ fuel ih =>
    intro s ts hts
    rw [loop, loop]
    cases hb : body s ts with
    | error e => rw [bind_eq_of_error hb, bind_eq_of_error hb]
    | ok r =>
      obtain ⟨r, rest⟩ := r
      rw [bind_eq_of_ok hb, bind_eq_of_ok hb]
      cases r with
      | inl s' =>
        have := hgo s ts s' rest hb
        exact ih s' rest (by omega)
      | inr x => rfl

/-- A loop whose steps take tokens satisfies its equation. -/
theorem repeat_eq {body : σ → Parse τ (σ ⊕ ρ)}
    (hgo : ∀ s ts s' rest, body s ts = .ok (.inl s', rest) → rest.length < ts.length) (s : σ) :
    repeat_ body s = body s >>= fun r => (match r with
      | .inl s => repeat_ body s
      | .inr r => pure r : Parse τ ρ) := by
  have hmore : ∀ (ts : List τ) (more fuel : Nat) (s : σ), ts.length < fuel →
      loop body fuel s ts = loop body (fuel + more) s ts := by
    intro ts more
    induction more with
    | zero => exact fun _ _ _ => rfl
    | succ more ih =>
      exact fun fuel s hf => (ih fuel s hf).trans (loop_more hgo (fuel + more) s ts (by omega))
  funext ts
  rw [repeat_, loop]
  cases hb : body s ts with
  | error e => rw [bind_eq_of_error hb, bind_eq_of_error hb]
  | ok r =>
    obtain ⟨r, rest⟩ := r
    rw [bind_eq_of_ok hb, bind_eq_of_ok hb]
    cases r with
    | inl s' =>
      have hlt := hgo s ts s' rest hb
      obtain ⟨more, hmore'⟩ := Nat.exists_eq_add_of_le (show rest.length + 1 ≤ ts.length from hlt)
      show loop body ts.length s' rest = loop body (rest.length + 1) s' rest
      rw [hmore']
      exact (hmore rest more (rest.length + 1) s' (Nat.lt_succ_self _)).symm
    | inr x => rfl

/-- A loop ends where its body does. -/
theorem repeat_leaves {body : σ → Parse τ (σ ⊕ ρ)} {s : σ} {ts : List τ} {x : ρ} {rest : List τ}
    (he : repeat_ body s ts = .ok (x, rest)) : ∃ s' mid, body s' mid = .ok (.inr x, rest) := by
  have hloop : ∀ fuel s ts, loop body fuel s ts = .ok (x, rest) →
      ∃ s' mid, body s' mid = .ok (.inr x, rest) := by
    intro fuel
    induction fuel with
    | zero => exact fun _ _ he => by cases he
    | succ fuel ih =>
      intro s ts he
      rw [loop] at he
      obtain ⟨r, mid, hb, hr⟩ := bind_eq_ok.mp he
      cases r with
      | inl s' => exact ih s' mid hr
      | inr y =>
        obtain ⟨rfl, rfl⟩ := pure_eq_ok.mp hr
        exact ⟨s, ts, hb⟩
  exact hloop _ s ts he

/-! ## What is read -/

/-- On lists shorter than `n` of tokens with `L`: where `p` returns `x`, it has taken tokens that
are `R x`. -/
def Reads (L : τ → Prop) (n : Nat) (p : Parse τ α) (R : α → List τ → Prop) : Prop :=
  ∀ ts x rest, (∀ t ∈ ts, L t) → ts.length < n → p ts = .ok (x, rest) →
    ∃ used, ts = used ++ rest ∧ R x used

namespace Reads

variable {L : τ → Prop} {m n : Nat}

theorem mono {p : Parse τ α} {R : α → List τ → Prop} (h : Reads L n p R) (hm : m ≤ n) :
    Reads L m p R := fun ts x rest hL hts => h ts x rest hL (Nat.lt_of_lt_of_le hts hm)

theorem imp {p : Parse τ α} {R S : α → List τ → Prop} (h : Reads L n p R)
    (hRS : ∀ x used, R x used → S x used) : Reads L n p S := by
  intro ts x rest hL hts he
  obtain ⟨used, rfl, hR⟩ := h ts x rest hL hts he
  exact ⟨used, rfl, hRS x used hR⟩

theorem pure {x : α} {R : α → List τ → Prop} (h : R x []) :
    Reads L n (pure x : Parse τ α) R := by
  intro ts y rest _ _ he
  obtain ⟨rfl, rfl⟩ := pure_eq_ok.mp he
  exact ⟨[], rfl, h⟩

theorem fail {message : String} {R : α → List τ → Prop} :
    Reads L n (Parse.fail message : Parse τ α) R :=
  fun _ _ _ _ _ he => (fail_eq_ok.mp he).elim

theorem bind {p : Parse τ α} {q : α → Parse τ β} {R : α → List τ → Prop}
    {S : β → List τ → Prop} (hp : Reads L n p R)
    (hq : ∀ x a, R x a → Reads L (n - a.length) (q x) fun y b => S y (a ++ b)) :
    Reads L n (p >>= q) S := by
  intro ts y rest hL hts he
  obtain ⟨x, mid, h₁, h₂⟩ := bind_eq_ok.mp he
  obtain ⟨a, rfl, hR⟩ := hp ts x mid hL hts h₁
  rw [List.length_append] at hts
  obtain ⟨b, rfl, hS⟩ := hq x a hR mid y rest (fun t ht => hL t (List.mem_append_right _ ht))
    (by omega) h₂
  exact ⟨a ++ b, (List.append_assoc _ _ _).symm, hS⟩

/-- The result of the parser, in another shape. -/
theorem bind_pure {p : Parse τ α} {f : α → β} {R : α → List τ → Prop} {S : β → List τ → Prop}
    (hp : Reads L n p R) (h : ∀ x a, R x a → S (f x) a) :
    Reads L n (p >>= fun x => Pure.pure (f x)) S :=
  .bind hp fun x a ha => .pure (by rw [List.append_nil]; exact h x a ha)

theorem peek_bind {q : τ → Parse τ β} {S : β → List τ → Prop} (hq : ∀ t, Reads L n (q t) S) :
    Reads L n (Parse.peek >>= q) S := by
  intro ts y rest hL hts he
  obtain ⟨t, mid, h₁, h₂⟩ := bind_eq_ok.mp he
  obtain ⟨rfl, -⟩ := peek_eq_ok.mp h₁
  exact hq t ts y rest hL hts h₂

theorem peekNext_bind {q : τ → Parse τ β} {S : β → List τ → Prop}
    (hq : ∀ t, Reads L n (q t) S) : Reads L n (Parse.peekNext >>= q) S := by
  intro ts y rest hL hts he
  obtain ⟨t, mid, h₁, h₂⟩ := bind_eq_ok.mp he
  obtain rfl := peekNext_eq_ok h₁
  exact hq t ts y rest hL hts h₂

theorem ite {c : Prop} [Decidable c] {p q : Parse τ α} {R : α → List τ → Prop}
    (hp : c → Reads L n p R) (hq : ¬ c → Reads L n q R) : Reads L n (if c then p else q) R := by
  by_cases h : c
  · rw [if_pos h]; exact hp h
  · rw [if_neg h]; exact hq h

theorem ifNext {c : τ → Bool} {yes : τ → Parse τ α} {no : Parse τ α} {R : α → List τ → Prop}
    (hyes : ∀ t, c t = true → L t → Reads L (n - 1) (yes t) fun x b => R x (t :: b))
    (hno : Reads L n no R) : Reads L n (Parse.ifNext c yes no) R := by
  intro ts x rest hL hts he
  rcases ifNext_eq_ok.mp he with ⟨t, ts', rfl, hc, h⟩ | ⟨_, _, -, -, h⟩
  · rw [List.length_cons] at hts
    obtain ⟨used, rfl, hR⟩ := hyes t hc (hL t List.mem_cons_self) ts' x rest
      (fun u hu => hL u (List.mem_cons_of_mem _ hu)) (by omega) h
    exact ⟨t :: used, rfl, hR⟩
  · exact hno ts x rest hL hts h

/-- The invariant `I` of a loop is about its state and the tokens it has taken. -/
theorem repeat_ {body : σ → Parse τ (σ ⊕ ρ)} {R : ρ → List τ → Prop} (I : σ → List τ → Prop)
    (h : ∀ s used, I s used → Reads L n (body s) fun r b =>
      r.elim (fun s' => I s' (used ++ b)) fun x => R x (used ++ b)) {s : σ} (hs : I s []) :
    Reads L n (Parse.repeat_ body s) R := by
  have hloop : ∀ fuel s used ts x rest, I s used → (∀ t ∈ ts, L t) → ts.length < n →
      loop body fuel s ts = .ok (x, rest) → ∃ more, ts = more ++ rest ∧ R x (used ++ more) := by
    intro fuel
    induction fuel with
    | zero => exact fun _ _ _ _ _ _ _ _ he => by cases he
    | succ fuel ih =>
      intro s used ts x rest hs hL hts he
      rw [loop] at he
      obtain ⟨r, mid, hb, hr⟩ := bind_eq_ok.mp he
      obtain ⟨more, rfl, hI⟩ := h s used hs ts r mid hL hts hb
      rw [List.length_append] at hts
      cases r with
      | inl s' =>
        obtain ⟨more', rfl, hR⟩ := ih s' (used ++ more) mid x rest hI
          (fun t ht => hL t (List.mem_append_right _ ht)) (by omega) hr
        exact ⟨more ++ more', (List.append_assoc _ _ _).symm, by rwa [← List.append_assoc]⟩
      | inr y =>
        obtain ⟨rfl, rfl⟩ := pure_eq_ok.mp hr
        exact ⟨more, rfl, hI⟩
  exact fun ts x rest hL hts he => hloop _ s [] ts x rest hs hL hts he

theorem recur {F : Parse τ α → Parse τ α} {R : α → List τ → Prop}
    (h : ∀ m p, m < n → Reads L m p R → Reads L (m + 1) (F p) R) :
    Reads L n (Parse.recur F) R := by
  have hfix : ∀ fuel, fuel ≤ n → Reads L fuel (Parse.fix F fuel) R := by
    intro fuel
    induction fuel with
    | zero => exact fun _ _ _ _ _ hts => absurd hts (Nat.not_lt_zero _)
    | succ fuel ih => exact fun hle => h fuel _ hle (ih (Nat.le_of_succ_le hle))
  exact fun ts x rest hL hts =>
    hfix (ts.length + 1) hts ts x rest hL (Nat.lt_succ_self _)

end Reads

end Parse

end Techuila
