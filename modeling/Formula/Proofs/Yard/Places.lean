import Formula.Proofs.Yard.Counts
import Mathlib.Data.List.Basic

/-!
# The places of the tokens in the yard

To speak of single tokens, which may look the same, each has its place in the formula with it
(`Placed`). A token that has come in waits, where the later ones are on top, or it has been sent,
or it was a parenthesis or a comma (`Yard.Places`).

A function directly in front of an open parenthesis waits right below it
(`Yard.Places.place_of_attached`). So it is on top when the parenthesis is closed, and gets the
number of its own arguments (`Yard.Places.call`).
-/

namespace Formula

/-- Is the token a literal or a variable? -/
def Token.isOperand (t : Token) : Bool :=
  match t.kind with
  | .value | .symbol => true
  | _ => false

namespace Token

variable {t : Token}

theorem isOperand_iff : t.isOperand = true ↔ t.kind = .value ∨ t.kind = .symbol := by
  cases hk : t.kind <;> simp [isOperand, hk]

private theorem isOpening_of_isOperand (ht : t.isOperand = true) : t.isOpening = false :=
  isOpening_eq_false fun hk => by simp [isOperand, hk] at ht

theorem remains_of_isOperand (ht : t.isOperand = true) : t.remains = true := by
  obtain hk | hk := isOperand_iff.mp ht <;> rw [remains, hk]

theorem isOperand_of_isFunction (ht : t.isFunction = true) : t.isOperand = false := by
  obtain ⟨b, hb⟩ := isFunction_iff.mp ht
  rw [isOperand, hb]

theorem remains_of_isFunction (ht : t.isFunction = true) : t.remains = true := by
  obtain ⟨b, hb⟩ := isFunction_iff.mp ht
  rw [remains, hb]

/-! A number of operands changes neither the text of a token nor what sort it is of. -/

theorem text_withArity (t : Token) (n : Nat) : (t.withArity n).text = t.text := by
  obtain ⟨text, kind, position⟩ := t
  cases kind <;> rfl

theorem isOperand_withArity (t : Token) (n : Nat) :
    (t.withArity n).isOperand = t.isOperand := by
  obtain ⟨text, kind, position⟩ := t
  cases kind <;> rfl

theorem remains_withArity (t : Token) (n : Nat) : (t.withArity n).remains = t.remains := by
  obtain ⟨text, kind, position⟩ := t
  cases kind <;> rfl

/-- The places of the tokens that remain, with another token. -/
theorem findIdxs_remains_concat (ts : List Token) (t : Token) :
    (ts ++ [t]).findIdxs remains =
      ts.findIdxs remains ++ if t.remains then [ts.length] else [] := by
  rw [List.findIdxs_append, List.findIdxs_singleton, Nat.zero_add]

end Token

/-- A token with its place in the formula, the number of tokens in front of it. -/
structure Placed where
  place : Nat
  token : Token

namespace Rpn

/-- The token `t` at a place of the formula comes out as `u`. -/
structure Settles (ts : List Token) (place : Nat) (t u : Token) : Prop where
  found : ts[place]? = some t
  /-- Nothing but the number of operands of a function may have changed. -/
  same : u = t ∨ t.isFunction = true ∧ ∃ n, u = t.withArity n
  /-- A function directly in front of a group has the number of arguments in the group. -/
  called : t.isFunction = true → ∀ o, ts[place + 1]? = some o → o.isOpening = true →
    ∃ inner c rest n, ts.drop (place + 2) = inner ++ c :: rest ∧
      c.kind = .parenthesis .closing ∧ Token.argumentCount? inner = some n ∧ u = t.withArity n

end Rpn

namespace Yard

open Rpn (Settles)

/-! ### The places -/

/-- The tokens that have come in, of those of a whole formula, are in the yard. -/
structure Places (ts done : List Token) (waiting sent : List Placed) : Prop where
  start : done <+: ts
  kept : ∀ p ∈ waiting, done[p.place]? = some p.token ∧ p.token.isOperand = false
  descending : waiting.Pairwise fun p q => q.place < p.place
  /-- An open parenthesis directly behind a function that waits does so too. -/
  attached : ∀ p ∈ waiting, p.token.isFunction = true → ∀ o, done[p.place + 1]? = some o →
    o.isOpening = true → ⟨p.place + 1, o⟩ ∈ waiting
  settled : ∀ p ∈ sent, ∃ t, Settles ts p.place t p.token
  ordered : sent.Pairwise fun q p => q.token.isOperand = true → p.place < q.place
  perm : ((waiting.filter (!·.token.isOpening) ++ sent).map (·.place)).Perm
    (done.findIdxs Token.remains)

namespace Places

variable {ts done inner : List Token} {waiting moved kept outer sent : List Placed} {o f : Placed}
  {t : Token}

theorem empty (ts : List Token) : Places ts [] [] [] where
  start := List.nil_prefix
  kept := fun _ hp => absurd hp List.not_mem_nil
  descending := .nil
  attached := fun _ hp => absurd hp List.not_mem_nil
  settled := fun _ hp => absurd hp List.not_mem_nil
  ordered := .nil
  perm := .refl _

theorem place_lt (h : Places ts done waiting sent) {p : Placed} (hp : p ∈ waiting) :
    p.place < done.length :=
  (List.getElem?_eq_some_iff.mp (h.kept p hp).1).1

private theorem place_lt_of_sent (h : Places ts done waiting sent) {p : Placed} (hp : p ∈ sent) :
    p.place < done.length := by
  have hmem : p.place ∈ done.findIdxs Token.remains :=
    h.perm.subset (List.mem_map_of_mem (List.mem_append_right _ hp))
  exact (List.mem_findIdxs_iff_exists_getElem_pos.mp hmem).1

/-- What waits stays the token at its place when others come in. -/
private theorem kept_concat (h : Places ts done waiting sent) {p : Placed} (hp : p ∈ waiting)
    (t : Token) : (done ++ [t])[p.place]? = some p.token ∧ p.token.isOperand = false := by
  rw [List.getElem?_append_left (h.place_lt hp)]
  exact h.kept p hp

/-- An open parenthesis that comes to stand behind a function that waits is the last token. -/
theorem attached_concat (h : Places ts done waiting sent) {p : Placed} (hp : p ∈ waiting)
    (hf : p.token.isFunction = true) {o : Token} (ho : (done ++ [t])[p.place + 1]? = some o)
    (hopen : o.isOpening = true) :
    ⟨p.place + 1, o⟩ ∈ waiting ∨ p.place + 1 = done.length ∧ o = t := by
  by_cases hlast : p.place + 1 < done.length
  · rw [List.getElem?_append_left hlast] at ho
    exact .inl (h.attached p hp hf o ho hopen)
  · have hplace : p.place + 1 = done.length := by
      have hlt := h.place_lt hp
      omega
    rw [hplace, List.getElem?_concat_length] at ho
    exact .inr ⟨hplace, (Option.some.inj ho).symm⟩

/-- A token that has come in and is no open parenthesis leaves what waits as it is. -/
theorem attached_of_not_opening (h : Places ts done waiting sent) (ht : t.isOpening = false) :
    ∀ p ∈ waiting, p.token.isFunction = true → ∀ o, (done ++ [t])[p.place + 1]? = some o →
      o.isOpening = true → ⟨p.place + 1, o⟩ ∈ waiting := by
  intro p hp hf o ho hopen
  obtain hmem | ⟨-, rfl⟩ := h.attached_concat hp hf ho hopen
  · exact hmem
  · rw [ht] at hopen
    exact absurd hopen Bool.false_ne_true

/-- A literal or a variable is sent at once. -/
theorem receive (h : Places ts done waiting sent) (hstart : done ++ [t] <+: ts)
    (ht : t.isOperand = true) :
    Places ts (done ++ [t]) waiting (⟨done.length, t⟩ :: sent) where
  start := hstart
  kept := fun p hp => h.kept_concat hp t
  descending := h.descending
  attached := h.attached_of_not_opening (Token.isOpening_of_isOperand ht)
  settled := by
    refine List.forall_mem_cons.mpr ⟨⟨t, ?_, .inl rfl, fun hf => ?_⟩, h.settled⟩
    · obtain ⟨rest, rfl⟩ := hstart
      simp
    · rw [Token.isOperand_of_isFunction hf] at ht
      exact absurd ht Bool.false_ne_true
  ordered := h.ordered.cons fun p hp _ => h.place_lt_of_sent hp
  perm := by
    rw [Token.findIdxs_remains_concat, if_pos (Token.remains_of_isOperand ht), List.map_append,
      List.map_cons]
    refine List.perm_middle.trans
      ((List.Perm.cons _ ?_).trans (List.perm_append_singleton _ _).symm)
    rw [← List.map_append]
    exact h.perm

/-- An operator, a function or an open parenthesis waits on top of the others. -/
theorem hold (h : Places ts done waiting sent) (hstart : done ++ [t] <+: ts)
    (ht : t.isOperand = false) (hkind : t.isOpening = !t.remains) :
    Places ts (done ++ [t]) (⟨done.length, t⟩ :: waiting) sent where
  start := hstart
  kept := List.forall_mem_cons.mpr
    ⟨⟨List.getElem?_concat_length, ht⟩, fun p hp => h.kept_concat hp t⟩
  descending := h.descending.cons fun p hp => h.place_lt hp
  attached := by
    refine List.forall_mem_cons.mpr ⟨fun _ o ho _ => ?_, fun p hp hf o ho hopen => ?_⟩
    · rw [List.getElem?_eq_none (by simp)] at ho
      cases ho
    · obtain hmem | ⟨hplace, rfl⟩ := h.attached_concat hp hf ho hopen
      · exact List.mem_cons_of_mem _ hmem
      · rw [hplace]
        exact List.mem_cons_self
  settled := h.settled
  ordered := h.ordered
  perm := by
    rw [Token.findIdxs_remains_concat]
    cases hremains : t.remains with
    | true =>
      rw [List.filter_cons_of_pos (by simp [hkind, hremains]), if_pos rfl]
      exact (h.perm.cons _).trans (List.perm_append_singleton _ _).symm
    | false =>
      rw [List.filter_cons_of_neg (by simp [hkind, hremains])]
      simpa using h.perm

/-- A comma and a closing parenthesis go neither here nor there. -/
theorem skip (h : Places ts done waiting sent) (hstart : done ++ [t] <+: ts)
    (ht : t.remains = false) (hopen : t.isOpening = false) :
    Places ts (done ++ [t]) waiting sent where
  start := hstart
  kept := fun p hp => h.kept_concat hp t
  descending := h.descending
  attached := h.attached_of_not_opening hopen
  settled := h.settled
  ordered := h.ordered
  perm := by
    rw [Token.findIdxs_remains_concat, ht]
    simpa using h.perm

/-- The token of a place, among those that have come in, is that of the formula. -/
theorem getElem?_eq (h : Places ts done waiting sent) {i : Nat} (hi : i < done.length) :
    ts[i]? = done[i]? := by
  obtain ⟨rest, rfl⟩ := h.start
  exact List.getElem?_append_left hi

/-- What waits above the open parentheses may be sent; if there are functions in it, then the
tokens behind them have to be known. -/
theorem send (h : Places ts done (moved ++ kept) sent)
    (hmoved : ∀ p ∈ moved, p.token.isOpening = false)
    (hnext : ∀ p ∈ moved, p.token.isFunction = true → ts[p.place + 1]? = done[p.place + 1]?) :
    Places ts done kept (moved.reverse ++ sent) := by
  obtain ⟨hdescending, hkept, hbelow⟩ := List.pairwise_append.mp h.descending
  have hoperand : ∀ p ∈ moved, p.token.isOperand = true → False := fun p hp hoperand => by
    rw [(h.kept p (List.mem_append_left kept hp)).2] at hoperand
    exact Bool.false_ne_true hoperand
  refine ⟨h.start, fun p hp => h.kept p (List.mem_append_right _ hp), hkept, ?_, ?_, ?_, ?_⟩
  · -- no function that is kept is attached to what is sent, where nothing is open
    intro p hp hf o ho hopen
    obtain hmem | hmem := List.mem_append.mp
      (h.attached p (List.mem_append_right _ hp) hf o ho hopen)
    · rw [hmoved _ hmem] at hopen
      exact absurd hopen Bool.false_ne_true
    · exact hmem
  · intro p hp
    obtain hp | hp := List.mem_append.mp hp
    · have hp := List.mem_reverse.mp hp
      have hmem := List.mem_append_left kept hp
      refine ⟨p.token, ?_, .inl rfl, fun hf o ho hopen => ?_⟩
      · rw [h.getElem?_eq (h.place_lt hmem)]
        exact (h.kept p hmem).1
      · -- the open parenthesis behind a function waits above it, but none does there
        rw [hnext p hp hf] at ho
        obtain hwaits | hwaits := List.mem_append.mp (h.attached p hmem hf o ho hopen)
        · rw [hmoved _ hwaits] at hopen
          exact absurd hopen Bool.false_ne_true
        · exact absurd (hbelow p hp _ hwaits) (Nat.not_lt.mpr (Nat.le_succ _))
    · exact h.settled p hp
  · refine List.pairwise_append.mpr ⟨?_, h.ordered, fun q hq p _ hq' => ?_⟩
    · exact (List.pairwise_reverse.mpr hdescending).imp_of_mem fun hq _ _ hq' =>
        (hoperand _ (List.mem_reverse.mp hq) hq').elim
    · exact (hoperand q (List.mem_reverse.mp hq) hq').elim
  · have hfilter : moved.filter (!·.token.isOpening) = moved :=
      List.filter_eq_self.mpr fun p hp => by rw [hmoved p hp]; rfl
    have hperm := h.perm
    rw [List.filter_append, hfilter] at hperm
    refine (List.Perm.map _ ?_).trans hperm
    rw [← List.append_assoc]
    refine List.Perm.append_right sent (List.perm_append_comm.trans ?_)
    exact (List.reverse_perm moved).append_right _

/-- An open parenthesis behind a function that waits right below one is this one. -/
theorem place_of_attached (h : Places ts done (o :: f :: outer) sent)
    (hf : f.token.isFunction = true) {o' : Token} (ho' : done[f.place + 1]? = some o')
    (hopen : o'.isOpening = true) : f.place + 1 = o.place := by
  have hmem := h.attached f (List.mem_cons_of_mem o List.mem_cons_self) hf o' ho' hopen
  -- what waits below the function stands in front of it
  have hbelow : ∀ p ∈ f :: outer, p.place < f.place + 1 :=
    List.forall_mem_cons.mpr ⟨Nat.lt_succ_self _, fun p hp =>
      Nat.lt_succ_of_lt ((List.pairwise_cons.mp h.descending.of_cons).1 p hp)⟩
  obtain heq | hmem := List.mem_cons.mp hmem
  · exact congrArg Placed.place heq
  · exact absurd (hbelow _ hmem) (Nat.lt_irrefl _)

/-- Further down there is no function in front of the open parenthesis. -/
theorem attached_below (h : Places ts done (o :: f :: outer) sent) :
    ∀ p ∈ outer, p.token.isFunction = true → ∀ o', done[p.place + 1]? = some o' →
      o'.isOpening = true → ⟨p.place + 1, o'⟩ ∈ f :: outer := by
  intro p hp hp' o' ho' hopen
  obtain ⟨habove, hbelow⟩ := List.pairwise_cons.mp h.descending
  have htop := habove f List.mem_cons_self
  have hplace := (List.pairwise_cons.mp hbelow).1 p hp
  have hmem := List.mem_cons_of_mem o (List.mem_cons_of_mem f hp)
  refine (List.mem_cons.mp (h.attached p hmem hp' o' ho' hopen)).resolve_left fun heq => ?_
  have hlast : p.place + 1 = o.place := congrArg Placed.place heq
  omega

/-- The open parenthesis goes when its group is closed. -/
theorem close (h : Places ts done (o :: outer) sent) (ho : o.token.isOpening = true)
    (hhead : ∀ p ∈ outer.head?, p.token.isFunction = false) : Places ts done outer sent where
  start := h.start
  kept := fun p hp => h.kept p (List.mem_cons_of_mem o hp)
  descending := h.descending.of_cons
  attached := by
    cases outer with
    | nil => exact fun p hp => absurd hp List.not_mem_nil
    | cons top outer =>
      refine List.forall_mem_cons.mpr ⟨fun hf => ?_, h.attached_below⟩
      rw [hhead top rfl] at hf
      exact absurd hf Bool.false_ne_true
  settled := h.settled
  ordered := h.ordered
  perm := by simpa [ho] using h.perm

/-- The function in front of it goes with it, and knows how many arguments it has. -/
theorem call (h : Places ts done (o :: f :: outer) sent) (ho : o.token.isOpening = true)
    (hf : f.token.isFunction = true) {c : Token} {rest : List Token} {n : Nat}
    (hinner : ts.drop (o.place + 1) = inner ++ c :: rest) (hc : c.kind = .parenthesis .closing)
    (hn : Token.argumentCount? inner = some n) :
    Places ts done outer (⟨f.place, f.token.withArity n⟩ :: sent) := by
  have hmem : f ∈ o :: f :: outer := List.mem_cons_of_mem o List.mem_cons_self
  have hopening : f.token.isOpening = false := Token.isOpening_of_isFunction hf
  refine ⟨h.start, fun p hp => h.kept p (by simp [hp]), h.descending.of_cons.of_cons,
    ?_, ?_, ?_, ?_⟩
  · intro p hp hp' o' ho' hopen
    refine (List.mem_cons.mp (h.attached_below p hp hp' o' ho' hopen)).resolve_left fun heq => ?_
    rw [← heq, hopen] at hopening
    exact Bool.noConfusion hopening
  · refine List.forall_mem_cons.mpr ⟨⟨f.token, ?_, .inr ⟨hf, n, rfl⟩, fun _ o' ho' hopen => ?_⟩,
      h.settled⟩
    · rw [h.getElem?_eq (h.place_lt hmem)]
      exact (h.kept f hmem).1
    · have hplace : f.place < o.place := (List.pairwise_cons.mp h.descending).1 f List.mem_cons_self
      have hlt : f.place + 1 < done.length :=
        Nat.lt_of_le_of_lt hplace (h.place_lt List.mem_cons_self)
      rw [h.getElem?_eq hlt] at ho'
      rw [← h.place_of_attached hf ho' hopen] at hinner
      exact ⟨inner, c, rest, n, hinner, hc, hn, rfl⟩
  · refine h.ordered.cons fun p _ hoperand => ?_
    rw [Token.isOperand_withArity, Token.isOperand_of_isFunction hf] at hoperand
    exact absurd hoperand Bool.false_ne_true
  · have hperm := h.perm
    rw [List.filter_cons_of_neg (by simp [ho]),
      List.filter_cons_of_pos (by simp [hopening])] at hperm
    refine List.Perm.trans ?_ hperm
    rw [List.map_append, List.map_cons, List.cons_append, List.map_cons, List.map_append]
    exact List.perm_middle

end Places

end Yard

end Formula
