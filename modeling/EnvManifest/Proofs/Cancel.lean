import EnvManifest.Cancel
import Mathlib.Logic.Relation

/-!
# Cancellation follows descent

Copies of a token share its flag, and a child follows the token that it was made from. So the steps
alone tell which tokens are cancelled, whatever the order of copies, children and cancellations.
-/

namespace EnvManifest.Cancel

/-! ## Histories -/

/-- Does a step make a token? -/
def Step.makes : Step → Bool
  | .cancel _ => false
  | _ => true

/-- The token that a step starts from. -/
def Step.subject? : Step → Option Nat
  | .child t | .clone t | .cancel t => some t
  | .new | .timeout _ => none

/-- The steps that made the tokens, one for each of them. -/
def makers (steps : List Step) : List Step := steps.filter (·.makes)

/-- Steps on tokens that earlier steps have made. -/
inductive History : List Step → Prop
  | nil : History []
  | snoc {steps : List Step} {s : Step} (past : History steps)
      (known : ∀ t ∈ s.subject?, t < (makers steps).length) : History (steps ++ [s])

/-- The tokens after some steps, with none at the start. -/
def run (steps : List Step) : Tokens := steps.foldl Tokens.step ⟨[], [], 0⟩

/-- One token at the start is a first step. -/
theorem run_new (steps : List Step) : run (.new :: steps) = steps.foldl Tokens.step .start := rfl

theorem run_snoc (steps : List Step) (s : Step) : run (steps ++ [s]) = (run steps).step s :=
  List.foldl_append ..

theorem makers_append (steps more : List Step) :
    makers (steps ++ more) = makers steps ++ makers more := List.filter_append ..

theorem makers_cancel (steps : List Step) (t : Nat) :
    makers (steps ++ [.cancel t]) = makers steps := by
  rw [makers_append]
  exact List.append_nil _

section

variable {steps : List Step} {s : Step}

theorem makers_makes (makes : s.makes) : makers (steps ++ [s]) = makers steps ++ [s] := by
  simp [makers, makes]

/-- A step that makes a token cancels none. -/
theorem cancel_mem_makes (makes : s.makes) (u : Nat) :
    Step.cancel u ∈ steps ++ [s] ↔ Step.cancel u ∈ steps := by
  have other : Step.cancel u ≠ s := fun e => by simp [← e, Step.makes] at makes
  simp [other]

end

/-! ## Descent -/

section

variable (made : List Step)

/-- A token was cloned from another one. -/
def Cloned (t u : Nat) : Prop := made[t]? = some (.clone u)

/-- Two tokens share a flag: cloning leads from one to the other, in either direction. -/
def Shares : Nat → Nat → Prop := Relation.EqvGen (Cloned made)

/-- A child has the token that it was made from as parent, and so has every copy of the child. -/
inductive Parent : Nat → Nat → Prop
  | child {t p : Nat} (child : made[t]? = some (.child p)) : Parent t p
  | clone {t u p : Nat} (cloned : Cloned made t u) (parent : Parent u p) : Parent t p

/-- A token leads to itself and to its ancestors. -/
def Lineage : Nat → Nat → Prop := Relation.ReflTransGen (Parent made)

/-- A token was made by a timeout that had expired, or cloned from such a token. -/
inductive Expired : Nat → Prop
  | timeout {t : Nat} (timeout : made[t]? = some (.timeout true)) : Expired t
  | clone {t u : Nat} (cloned : Cloned made t u) (expired : Expired u) : Expired t

end

/-- A token or one of its ancestors shares its flag with a token that was cancelled, or has
expired. -/
def Cancelled (steps : List Step) (t : Nat) : Prop :=
  ∃ a, Lineage (makers steps) t a ∧
    ((∃ u, Shares (makers steps) a u ∧ Step.cancel u ∈ steps) ∨ Expired (makers steps) a)

section

variable {made : List Step} {s : Step} {t u p : Nat}

theorem made_later (h : made[t]? = some s) (more : List Step) : (made ++ more)[t]? = some s := by
  rwa [List.getElem?_append_left (List.getElem?_eq_some_iff.mp h).1]

theorem Shares.later (h : Shares made t u) (more : List Step) : Shares (made ++ more) t u :=
  Relation.EqvGen.mono (fun _ _ cloned => made_later cloned more) _ _ h

theorem Parent.later (h : Parent made t p) (more : List Step) : Parent (made ++ more) t p := by
  induction h with
  | child child => exact .child (made_later child more)
  | clone cloned parent ih => exact .clone (made_later cloned more) ih

theorem Lineage.later (h : Lineage made t u) (more : List Step) : Lineage (made ++ more) t u :=
  Relation.ReflTransGen.mono (fun _ _ parent => parent.later more) _ _ h

theorem Expired.later (h : Expired made t) (more : List Step) : Expired (made ++ more) t := by
  induction h with
  | timeout timeout => exact .timeout (made_later timeout more)
  | clone cloned expired ih => exact .clone (made_later cloned more) ih

/-- What is cancelled stays cancelled. -/
theorem Cancelled.later {steps : List Step} (h : Cancelled steps t) (more : List Step) :
    Cancelled (steps ++ more) t := by
  obtain ⟨a, lineage, cause⟩ := h
  rw [Cancelled, makers_append]
  refine ⟨a, lineage.later _, ?_⟩
  obtain ⟨u, shares, cancelled⟩ | expired := cause
  · exact .inl ⟨u, shares.later _, List.mem_append_left _ cancelled⟩
  · exact .inr (expired.later _)

/-- Another token is cancelled. -/
theorem cancelled_cancel {steps : List Step} :
    Cancelled (steps ++ [.cancel u]) t ↔
      Cancelled steps t ∨ ∃ a, Lineage (makers steps) t a ∧ Shares (makers steps) a u := by
  rw [Cancelled, makers_cancel]
  constructor
  · rintro ⟨a, lineage, ⟨v, shares, cancelled⟩ | expired⟩
    · obtain earlier | now := List.mem_append.mp cancelled
      · exact .inl ⟨a, lineage, .inl ⟨v, shares, earlier⟩⟩
      · obtain rfl := Step.cancel.inj (List.mem_singleton.mp now)
        exact .inr ⟨a, lineage, shares⟩
    · exact .inl ⟨a, lineage, .inr expired⟩
  · rintro (⟨a, lineage, ⟨v, shares, cancelled⟩ | expired⟩ | ⟨a, lineage, shares⟩)
    · exact ⟨a, lineage, .inl ⟨v, shares, List.mem_append_left _ cancelled⟩⟩
    · exact ⟨a, lineage, .inr expired⟩
    · exact ⟨a, lineage, .inl ⟨u, shares, List.mem_append_right _ (List.mem_singleton.mpr rfl)⟩⟩

end

/-! ## Tokens of a history -/

namespace Tokens

/-- The flag of a token. -/
def flag? (ts : Tokens) (t : Nat) : Option Nat := (ts.token t).head?.map (·.flag)

/-- A token is as the step that makes it leaves it. -/
def MadeBy (ts : Tokens) (t : Nat) : Step → Prop
  | .new => ∃ flag, ts.token t = [⟨flag, false⟩]
  | .timeout expired => ∃ flag, ts.token t = [⟨flag, expired⟩]
  | .child p => ∃ flag, ts.token t = ⟨flag, false⟩ :: ts.token p
  | .clone u => ts.token t = ts.token u
  | .cancel _ => False

end Tokens

/-- What the tokens of a history have in common with its steps. -/
structure Kept (steps : List Step) (ts : Tokens) : Prop where
  count : ts.tokens.length = (makers steps).length
  /-- A token is as it was made, from a token before it. -/
  made : ∀ t s, (makers steps)[t]? = some s → ts.MadeBy t s ∧ ∀ u ∈ s.subject?, u < t
  /-- Flags in use are below the next one. -/
  flagged : ∀ t < ts.tokens.length, ∃ flag, ts.flag? t = some flag ∧ flag < ts.flags
  /-- Only copies have the same flag. -/
  shares : ∀ t < ts.tokens.length, ∀ u < ts.tokens.length, ts.flag? t = ts.flag? u →
    Shares (makers steps) t u
  named : ∀ u, Step.cancel u ∈ steps → u < ts.tokens.length
  raised : ∀ flag, flag ∈ ts.raised ↔ ∃ u, Step.cancel u ∈ steps ∧ ts.flag? u = some flag

section

variable {steps : List Step} {ts ts' : Tokens} {s : Step} {t : Nat} {new : Token}

theorem token_old (h : ts'.tokens = ts.tokens ++ [new]) (ht : t < ts.tokens.length) :
    ts'.token t = ts.token t := by
  simp [Tokens.token, h, List.getElem?_append_left ht]

theorem token_new (h : ts'.tokens = ts.tokens ++ [new]) : ts'.token ts.tokens.length = new := by
  simp [Tokens.token, h]

theorem flag?_old (h : ts'.tokens = ts.tokens ++ [new]) (ht : t < ts.tokens.length) :
    ts'.flag? t = ts.flag? t := by
  rw [Tokens.flag?, token_old h ht, Tokens.flag?]

theorem flag?_new {link : Link} {rest : List Link} (h : ts'.tokens = ts.tokens ++ [link :: rest]) :
    ts'.flag? ts.tokens.length = some link.flag := by
  rw [Tokens.flag?, token_new h]
  rfl

theorem madeBy_old (h : ts'.tokens = ts.tokens ++ [new]) (ht : t < ts.tokens.length)
    (earlier : ∀ u ∈ s.subject?, u < t) (made : ts.MadeBy t s) : ts'.MadeBy t s := by
  have old := token_old h ht
  cases s with
  | new => rwa [Tokens.MadeBy, old]
  | timeout => rwa [Tokens.MadeBy, old]
  | child p => rwa [Tokens.MadeBy, old, token_old h (Nat.lt_trans (earlier p rfl) ht)]
  | clone u => rwa [Tokens.MadeBy, old, token_old h (Nat.lt_trans (earlier u rfl) ht)]
  | cancel => exact made.elim

/-- One more token, made by a step. -/
theorem Kept.extend {link : Link} {rest : List Link} (h : Kept steps ts) (makes : s.makes)
    (known : ∀ u ∈ s.subject?, u < (makers steps).length)
    (tokens : ts'.tokens = ts.tokens ++ [link :: rest]) (raised : ts'.raised = ts.raised)
    (made : ts'.MadeBy ts.tokens.length s) (bound : link.flag < ts'.flags) (more : ts.flags ≤ ts'.flags)
    (shares : ∀ u < ts.tokens.length, ts.flag? u = some link.flag →
      Shares (makers (steps ++ [s])) ts.tokens.length u) : Kept (steps ++ [s]) ts' := by
  have length : ts'.tokens.length = ts.tokens.length + 1 := by simp [tokens]
  have grown : makers (steps ++ [s]) = makers steps ++ [s] := makers_makes makes
  have own : ts'.flag? ts.tokens.length = some link.flag := flag?_new tokens
  have split {u : Nat} (hu : u < ts'.tokens.length) : u < ts.tokens.length ∨ u = ts.tokens.length := by
    omega
  rw [grown] at shares
  refine ⟨?_, fun t m hm => ?_, fun t ht => ?_, fun t ht u hu same => ?_, fun u hu => ?_, fun flag => ?_⟩
  · rw [length, grown, h.count, List.length_append, List.length_singleton]
  · rw [grown] at hm
    have ht := (List.getElem?_eq_some_iff.mp hm).1
    rw [List.length_append, List.length_singleton, ← h.count, ← length] at ht
    obtain ht | rfl := split ht
    · rw [List.getElem?_append_left (h.count ▸ ht)] at hm
      obtain ⟨before, earlier⟩ := h.made t m hm
      exact ⟨madeBy_old tokens ht earlier before, earlier⟩
    · rw [h.count, List.getElem?_concat_length] at hm
      obtain rfl := Option.some.inj hm
      exact ⟨made, by rwa [h.count]⟩
  · obtain ht | rfl := split ht
    · obtain ⟨flag, has, below⟩ := h.flagged t ht
      exact ⟨flag, (flag?_old tokens ht).trans has, Nat.lt_of_lt_of_le below more⟩
    · exact ⟨link.flag, own, bound⟩
  · rw [grown]
    obtain ht | rfl := split ht <;> obtain hu | rfl := split hu
    · rw [flag?_old tokens ht, flag?_old tokens hu] at same
      exact (h.shares t ht u hu same).later _
    · rw [flag?_old tokens ht, own] at same
      exact .symm _ _ (shares t ht same)
    · rw [flag?_old tokens hu, own] at same
      exact shares u hu same.symm
    · exact .refl _
  · rw [length]
    exact Nat.lt_succ_of_lt (h.named u ((cancel_mem_makes makes u).mp hu))
  · rw [raised, h.raised]
    refine exists_congr fun u => ?_
    rw [cancel_mem_makes makes u]
    exact and_congr_right fun cancelled => by rw [flag?_old tokens (h.named u cancelled)]

theorem Kept.exists_link (h : Kept steps ts) (ht : t < ts.tokens.length) :
    ∃ link rest, ts.token t = link :: rest ∧ link.flag < ts.flags := by
  obtain ⟨flag, has, below⟩ := h.flagged t ht
  obtain ⟨link, head, rfl⟩ := Option.map_eq_some_iff.mp has
  obtain ⟨rest, token⟩ := List.head?_eq_some_iff.mp head
  exact ⟨link, rest, token, below⟩

/-- A token with a flag of its own. -/
theorem Kept.make {expired : Bool} {parent : Token} (h : Kept steps ts) (makes : s.makes)
    (known : ∀ u ∈ s.subject?, u < (makers steps).length)
    (made : (ts.make expired parent).MadeBy ts.tokens.length s) :
    Kept (steps ++ [s]) (ts.make expired parent) := by
  refine h.extend makes known rfl rfl made (Nat.lt_succ_self _) (Nat.le_succ _) fun u hu same => ?_
  obtain ⟨flag, has, below⟩ := h.flagged u hu
  exact absurd (Option.some.inj (has.symm.trans same)) (Nat.ne_of_lt below)

/-- A copy of a token. -/
theorem Kept.copy {u : Nat} (h : Kept steps ts) (known : u < (makers steps).length) :
    Kept (steps ++ [.clone u]) (ts.step (.clone u)) := by
  have hu : u < ts.tokens.length := h.count ▸ known
  obtain ⟨link, rest, token, below⟩ := h.exists_link hu
  have tokens : (ts.step (.clone u)).tokens = ts.tokens ++ [link :: rest] := by
    rw [← token]
    rfl
  have same : ts.flag? u = some link.flag := by
    rw [Tokens.flag?, token]
    rfl
  refine h.extend rfl (by rintro _ ⟨⟩; exact known) tokens rfl ?_ below (Nat.le_refl _) fun v hv flag => ?_
  · rw [Tokens.MadeBy, token_new tokens, token_old tokens hu, token]
  · have cloned : Cloned (makers steps ++ [.clone u]) ts.tokens.length u := by
      rw [Cloned, h.count]
      exact List.getElem?_concat_length
    rw [makers_append]
    exact .trans _ _ _ (.rel _ _ cloned) ((h.shares u hu v hv (same.trans flag.symm)).later _)

/-- A token is cancelled: its flag is set. -/
theorem Kept.cancel {u : Nat} (h : Kept steps ts) (known : u < (makers steps).length) :
    Kept (steps ++ [.cancel u]) (ts.step (.cancel u)) := by
  have hu : u < ts.tokens.length := h.count ▸ known
  obtain ⟨link, rest, token, -⟩ := h.exists_link hu
  have flag : ts.flag? u = some link.flag := by
    rw [Tokens.flag?, token]
    rfl
  have step : ts.step (.cancel u) = { ts with raised := link.flag :: ts.raised } := by
    rw [Tokens.step, token]
  have cancels (v : Nat) : Step.cancel v ∈ steps ++ [.cancel u] ↔ Step.cancel v ∈ steps ∨ v = u := by
    simp
  have made := makers_cancel steps u
  rw [step]
  refine ⟨made ▸ h.count, made ▸ h.made, h.flagged, made ▸ h.shares, fun v hv => ?_, fun f => ?_⟩
  · obtain hv | rfl := (cancels v).mp hv
    · exact h.named v hv
    · exact hu
  · simp only [cancels, List.mem_cons, h.raised f, or_and_right, exists_or, exists_eq_left]
    rw [or_comm]
    refine or_congr_right ?_
    change f = link.flag ↔ ts.flag? u = some f
    rw [flag, Option.some.injEq, eq_comm]

/-- **One step.** -/
theorem kept_step (h : Kept steps ts) (known : ∀ t ∈ s.subject?, t < (makers steps).length) :
    Kept (steps ++ [s]) (ts.step s) := by
  cases s with
  | new => exact h.make rfl known ⟨ts.flags, token_new rfl⟩
  | timeout expired => exact h.make rfl known ⟨ts.flags, token_new rfl⟩
  | child p =>
    have old : (ts.step (.child p)).token p = ts.token p := token_old rfl (h.count ▸ known p rfl)
    refine h.make rfl known ⟨ts.flags, ?_⟩
    change (ts.step (.child p)).token ts.tokens.length = _ :: (ts.step (.child p)).token p
    rw [token_new rfl, old]
  | clone u => exact h.copy (known u rfl)
  | cancel u => exact h.cancel (known u rfl)

/-- **Every history.** -/
theorem kept_run (h : History steps) : Kept steps (run steps) := by
  induction h with
  | nil => exact ⟨rfl, nofun, nofun, nofun, nofun, by simp [run]⟩
  | snoc past known ih =>
    rw [run_snoc]
    exact kept_step ih known

/-! ## Links of a token -/

theorem Kept.lt (h : Kept steps ts) {u : Nat} (cloned : Cloned (makers steps) t u) : u < t :=
  (h.made t _ cloned).2 u rfl

theorem Kept.token_cloned (h : Kept steps ts) {u : Nat} (cloned : Cloned (makers steps) t u) :
    ts.token t = ts.token u := (h.made t _ cloned).1

/-- A property of all tokens of a history, along the steps that made them. -/
theorem Kept.token_induction (h : Kept steps ts) {motive : (t : Nat) → t < ts.tokens.length → Prop}
    (own : ∀ t ht link, ts.token t = [link] →
      (link.expired → (makers steps)[t]? = some (.timeout true)) → motive t ht)
    (child : ∀ t ht p link, (makers steps)[t]? = some (.child p) → ts.token t = link :: ts.token p →
      link.expired = false → motive t ht)
    (clone : ∀ t ht u hu, Cloned (makers steps) t u → motive u hu → motive t ht) :
    ∀ t ht, motive t ht := by
  intro t
  induction t using Nat.strongRecOn with
  | ind t ih =>
    intro ht
    have present : t < (makers steps).length := h.count ▸ ht
    obtain ⟨s, maker⟩ : ∃ s, (makers steps)[t]? = some s := ⟨_, List.getElem?_eq_getElem present⟩
    obtain ⟨made, earlier⟩ := h.made t s maker
    cases s with
    | new =>
      obtain ⟨flag, token⟩ := made
      exact own t ht _ token nofun
    | timeout expired =>
      obtain ⟨flag, token⟩ := made
      exact own t ht _ token fun e => by rw [maker, show expired = true from e]
    | child p =>
      obtain ⟨flag, token⟩ := made
      exact child t ht p _ maker token rfl
    | clone u =>
      have hu : u < ts.tokens.length := Nat.lt_trans (earlier u rfl) ht
      exact clone t ht u hu maker (ih u (earlier u rfl) hu)
    | cancel => exact made.elim

variable {u p : Nat} {link : Link} {rest : List Link}

/-- A token that follows another one has its links after its own. -/
theorem Kept.token_of_parent (h : Kept steps ts) (parent : Parent (makers steps) t p) :
    p < t ∧ ∃ link, ts.token t = link :: ts.token p := by
  induction parent with
  | child child =>
    obtain ⟨⟨flag, token⟩, earlier⟩ := h.made _ _ child
    exact ⟨earlier _ rfl, _, token⟩
  | clone cloned parent ih =>
    obtain ⟨before, link, token⟩ := ih
    exact ⟨Nat.lt_trans before (h.lt cloned), link, (h.token_cloned cloned).trans token⟩

theorem Kept.parent_of_token (h : Kept steps ts) (ht : t < ts.tokens.length)
    (token : ts.token t = link :: rest) :
    rest = [] ∨ ∃ p, Parent (makers steps) t p ∧ ts.token p = rest := by
  induction t, ht using h.token_induction with
  | own t ht own alone =>
    rw [alone] at token
    exact .inl (List.cons.inj token).2.symm
  | child t ht p own child follows =>
    rw [follows] at token
    exact .inr ⟨p, .child child, (List.cons.inj token).2⟩
  | clone t ht u hu cloned ih =>
    rw [h.token_cloned cloned] at token
    obtain none | ⟨p, parent, same⟩ := ih token
    · exact .inl none
    · exact .inr ⟨p, .clone cloned parent, same⟩

theorem Kept.lineage_le (h : Kept steps ts) (lineage : Lineage (makers steps) t u) : u ≤ t := by
  induction lineage with
  | refl => exact Nat.le_refl t
  | tail _ parent ih => exact Nat.le_trans (Nat.le_of_lt (h.token_of_parent parent).1) ih

/-- The links of a token are the first links of its lineage. -/
theorem Kept.mem_token (h : Kept steps ts) (ht : t < ts.tokens.length) :
    link ∈ ts.token t ↔ ∃ a, Lineage (makers steps) t a ∧ (ts.token a).head? = some link := by
  constructor
  · intro mem
    generalize token : ts.token t = links at mem
    induction links generalizing t with
    | nil => cases mem
    | cons first links ih =>
      obtain rfl | mem := List.mem_cons.mp mem
      · exact ⟨t, .refl, by rw [token]; rfl⟩
      · obtain rfl | ⟨p, parent, same⟩ := h.parent_of_token ht token
        · cases mem
        · have before := (h.token_of_parent parent).1
          obtain ⟨a, lineage, head⟩ := ih (Nat.lt_trans before ht) same mem
          exact ⟨a, .head parent lineage, head⟩
  · rintro ⟨a, lineage, head⟩
    induction lineage using Relation.ReflTransGen.head_induction_on with
    | refl => exact List.mem_of_head? head
    | head parent _ ih =>
      obtain ⟨before, own, token⟩ := h.token_of_parent parent
      rw [token]
      exact List.mem_cons_of_mem _ (ih (Nat.lt_trans before ht))

theorem Kept.expired_iff (h : Kept steps ts) (ht : t < ts.tokens.length) :
    (ts.token t).head?.any (·.expired) = true ↔ Expired (makers steps) t := by
  constructor
  · intro expired
    induction t, ht using h.token_induction with
    | own t ht link alone timeout =>
      rw [alone] at expired
      exact .timeout (timeout expired)
    | child t ht p link child follows live =>
      rw [follows] at expired
      exact absurd (show link.expired = true from expired) (by simp [live])
    | clone t ht u hu cloned ih =>
      rw [h.token_cloned cloned] at expired
      exact .clone cloned (ih expired)
  · intro expired
    induction expired with
    | timeout timeout =>
      obtain ⟨flag, token⟩ := (h.made _ _ timeout).1
      rw [token]
      rfl
    | clone cloned _ ih =>
      rw [h.token_cloned cloned]
      exact ih (Nat.lt_trans (h.lt cloned) ht)

theorem Kept.token_shared (h : Kept steps ts) (shares : Shares (makers steps) t u) :
    ts.token t = ts.token u := by
  induction shares with
  | rel _ _ cloned => exact h.token_cloned cloned
  | refl => rfl
  | symm _ _ _ ih => exact ih.symm
  | trans _ _ _ _ _ ih ih' => exact ih.trans ih'

/-- A token is cancelled in the heap of flags exactly if its lineage is. -/
theorem Kept.isCancelled_iff (h : Kept steps ts) (ht : t < ts.tokens.length) :
    ts.isCancelled (ts.token t) = true ↔ Cancelled steps t := by
  simp only [Tokens.isCancelled, List.any_eq_true, Bool.or_eq_true, List.contains_iff_mem]
  constructor
  · rintro ⟨link, mem, cause⟩
    obtain ⟨a, lineage, head⟩ := (h.mem_token ht).mp mem
    have ha := Nat.lt_of_le_of_lt (h.lineage_le lineage) ht
    refine ⟨a, lineage, ?_⟩
    obtain expired | raised := cause
    · exact .inr ((h.expired_iff ha).mp (by rw [head]; exact expired))
    · obtain ⟨u, cancelled, flag⟩ := (h.raised _).mp raised
      have same : ts.flag? a = ts.flag? u := by
        rw [flag, Tokens.flag?, head]
        rfl
      exact .inl ⟨u, h.shares a ha u (h.named u cancelled) same, cancelled⟩
  · rintro ⟨a, lineage, cause⟩
    have ha := Nat.lt_of_le_of_lt (h.lineage_le lineage) ht
    obtain ⟨link, rest, token, -⟩ := h.exists_link ha
    have head : (ts.token a).head? = some link := by rw [token]; rfl
    refine ⟨link, (h.mem_token ht).mpr ⟨a, lineage, head⟩, ?_⟩
    obtain ⟨u, shares, cancelled⟩ | expired := cause
    · refine .inr ((h.raised _).mpr ⟨u, cancelled, ?_⟩)
      rw [Tokens.flag?, ← h.token_shared shares, head]
      rfl
    · have first := (h.expired_iff ha).mpr expired
      rw [head] at first
      exact .inl first

/-! ## Who follows whom -/

theorem Kept.lineage_suffix (h : Kept steps ts) (lineage : Lineage (makers steps) t u) :
    ts.token u <:+ ts.token t := by
  induction lineage with
  | refl => exact List.suffix_refl _
  | tail _ parent ih =>
    obtain ⟨link, token⟩ := (h.token_of_parent parent).2
    rw [token] at ih
    exact (List.suffix_cons ..).trans ih

/-- A parent and its ancestors share no flag with the child. -/
theorem Kept.parent_apart (h : Kept steps ts) (parent : Parent (makers steps) t p) {a : Nat}
    (lineage : Lineage (makers steps) p a) : ¬ Shares (makers steps) a t := by
  intro shares
  obtain ⟨link, token⟩ := (h.token_of_parent parent).2
  have shorter := (h.lineage_suffix lineage).length_le
  rw [h.token_shared shares, token, List.length_cons] at shorter
  omega

/-- Another child and its ancestors share no flag with the child, unless it is a copy. -/
theorem Kept.sibling_apart (h : Kept steps ts) (parent : Parent (makers steps) t p)
    (other : Parent (makers steps) u p) (copies : ¬ Shares (makers steps) u t) {a : Nat}
    (lineage : Lineage (makers steps) u a) : ¬ Shares (makers steps) a t := by
  intro shares
  obtain rfl | ⟨q, parent', lineage'⟩ := lineage.cases_head
  · exact copies shares
  obtain ⟨link, token⟩ := (h.token_of_parent parent).2
  obtain ⟨link', token'⟩ := (h.token_of_parent other).2
  obtain ⟨link'', token''⟩ := (h.token_of_parent parent').2
  have same : ts.token p = ts.token q := (List.cons.inj (token'.symm.trans token'')).2
  have shorter := (h.lineage_suffix lineage').length_le
  rw [h.token_shared shares, token, ← same, List.length_cons] at shorter
  omega

end

section

variable {made : List Step} {t u p : Nat}

theorem Parent.lt (h : Parent made t p) : t < made.length := by
  cases h with
  | child child => exact (List.getElem?_eq_some_iff.mp child).1
  | clone cloned => exact (List.getElem?_eq_some_iff.mp cloned).1

/-- Tokens that share a flag are copies of the same tokens, as far as those are no copies. -/
theorem Shares.copies_iff {r : Nat} (h : Shares made t u) (original : ∀ v, ¬ Cloned made r v) :
    Relation.ReflTransGen (Cloned made) t r ↔ Relation.ReflTransGen (Cloned made) u r := by
  induction h with
  | rel t u cloned =>
    refine ⟨fun copies => ?_, fun copies => copies.head cloned⟩
    obtain rfl | ⟨v, cloned', copies⟩ := copies.cases_head
    · exact absurd cloned (original u)
    · obtain rfl := Step.clone.inj (Option.some.inj (cloned.symm.trans cloned'))
      exact copies
  | refl => exact Iff.rfl
  | symm _ _ _ ih => exact ih.symm
  | trans _ _ _ _ _ ih ih' => exact ih.trans ih'

theorem Shares.eq_of_original (h : Shares made t u) (ht : ∀ v, ¬ Cloned made t v)
    (hu : ∀ v, ¬ Cloned made u v) : t = u := by
  obtain same | ⟨v, cloned, -⟩ := ((h.copies_iff hu).mpr .refl).cases_head
  · exact same
  · exact absurd cloned (ht v)

theorem not_cloned_of_child (h : made[t]? = some (.child p)) (v : Nat) : ¬ Cloned made t v :=
  fun cloned => nomatch Option.some.inj (h.symm.trans cloned)

end

/-! ## Answers -/

/-- What a token answers after some steps. -/
def answer (steps : List Step) (t : Nat) : Bool := (run steps).isCancelled ((run steps).token t)

theorem answer_iff {steps : List Step} {t : Nat} (h : History steps) (ht : t < (makers steps).length) :
    answer steps t = true ↔ Cancelled steps t := by
  have kept := kept_run h
  exact kept.isCancelled_iff (kept.count ▸ ht)

/-- A cancellation changes the answers of those only whose lineage shares the flag. -/
theorem answer_cancel {steps : List Step} {t u : Nat} (h : History steps)
    (ht : t < (makers steps).length) (hu : u < (makers steps).length)
    (apart : ∀ a, Lineage (makers steps) t a → ¬ Shares (makers steps) a u) :
    answer (steps ++ [.cancel u]) t = answer steps t := by
  have next : History (steps ++ [.cancel u]) := .snoc h fun _ e => Option.some.inj e ▸ hu
  rw [Bool.eq_iff_iff, answer_iff next (by rwa [makers_cancel]), answer_iff h ht, cancelled_cancel]
  exact or_iff_left fun ⟨a, lineage, shares⟩ => apart a lineage shares

/-- Cancellation follows the descent of the tokens. -/
structure FollowsDescent (steps : List Step) : Prop where
  /-- A token is cancelled exactly if a cancellation or a timeout reached its lineage. -/
  cancelled : ∀ t < (makers steps).length, (answer steps t = true ↔ Cancelled steps t)
  /-- A cancelled token stays cancelled. -/
  stays : ∀ more, History (steps ++ more) → ∀ t < (makers steps).length,
    answer steps t = true → answer (steps ++ more) t = true
  /-- Cancelling a child leaves its parent as it is. -/
  parent : ∀ child p, Parent (makers steps) child p →
    answer (steps ++ [.cancel child]) p = answer steps p
  /-- Cancelling a child leaves the other children of its parent as they are, copies apart. -/
  sibling : ∀ child other p, Parent (makers steps) child p → Parent (makers steps) other p →
    ¬ Shares (makers steps) other child → answer (steps ++ [.cancel child]) other = answer steps other
  /-- Children that were made by two steps are no copies of each other. -/
  separate : ∀ child other p q, (makers steps)[child]? = some (.child p) →
    (makers steps)[other]? = some (.child q) → other ≠ child → ¬ Shares (makers steps) other child

/-- **Cancellation follows descent after every step of every history.** -/
theorem cancellation_follows_descent {steps : List Step} (h : History steps) :
    FollowsDescent steps := by
  have kept := kept_run h
  refine ⟨fun t ht => answer_iff h ht, fun more later t ht yes => ?_, fun child p parent => ?_,
    fun child other p parent parent' copies => ?_, fun child other p q made made' ne shares => ?_⟩
  · have longer : t < (makers (steps ++ more)).length := by
      rw [makers_append, List.length_append]
      omega
    exact (answer_iff later longer).mpr (((answer_iff h ht).mp yes).later more)
  · have before := Nat.lt_trans (kept.token_of_parent parent).1 parent.lt
    exact answer_cancel h before parent.lt fun a lineage => kept.parent_apart parent lineage
  · exact answer_cancel h parent'.lt parent.lt fun a lineage =>
      kept.sibling_apart parent parent' copies lineage
  · exact ne (shares.eq_of_original (not_cloned_of_child made') (not_cloned_of_child made))

/-- Two children of a token, a copy of the first of them, the copy cancelled, and then a child of a
timeout that has expired. -/
def family : List Step :=
  [.new, .child 0, .child 0, .clone 1, .cancel 3, .timeout true, .child 4]

theorem family_follows_descent : History family ∧ FollowsDescent family := by
  have history : History family :=
    .snoc (.snoc (.snoc (.snoc (.snoc (.snoc (.snoc .nil (s := .new) (by decide))
      (s := .child 0) (by decide)) (s := .child 0) (by decide)) (s := .clone 1) (by decide))
      (s := .cancel 3) (by decide)) (s := .timeout true) (by decide)) (s := .child 4) (by decide)
  exact ⟨history, cancellation_follows_descent history⟩

example : (run family).states = [false, true, false, true, true, true] := by decide

end EnvManifest.Cancel
