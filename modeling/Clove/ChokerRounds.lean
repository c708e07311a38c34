import Clove.Choker
import Clove.Lib.Lists

/-!
# Choke rounds

A round gives the slots to the best of the interested peers; on every third round, where more
are interested than there are slots, the last of them makes way for one of the others.
`roundExact` says what the peers' state is once the decision is applied.  The others take
turns: `optimistic_once` says that as long as they stay the same, as many optimistic rounds as
there are of them give each of them the slot once.
-/

namespace Clove

namespace Choker

/-! ## The standing -/

/-- Better rate, or the same rate and a lower id. -/
def Outranks (a b : PeerSnapshot) : Prop := b.rate < a.rate ∨ (a.rate = b.rate ∧ a.id < b.id)

/-- The interested peers, best first. -/
def standing (peers : List PeerSnapshot) : List PeerSnapshot :=
  (peers.filter (·.interested)).insertionSort fun a b => ranksBefore a b = true

/-- The ids that are unchoked once a decision is applied. -/
def unchokedAfter (d : Decision) (peers : List PeerSnapshot) : List Nat :=
  (peers.filter fun p => p.id ∈ d.unchoke || (p.unchoked && p.id ∉ d.choke)).map (·.id)

variable {peers : List PeerSnapshot} {maxUnchoked round : Nat}

instance ranksBefore_total : Std.Total fun a b : PeerSnapshot => ranksBefore a b = true :=
  ⟨fun a b => by
    simp only [ranksBefore, Bool.or_eq_true, Bool.and_eq_true, decide_eq_true_eq, beq_iff_eq]
    omega⟩

instance ranksBefore_trans : IsTrans PeerSnapshot fun a b => ranksBefore a b = true :=
  ⟨fun a b c => by
    simp only [ranksBefore, Bool.or_eq_true, Bool.and_eq_true, decide_eq_true_eq, beq_iff_eq]
    omega⟩

theorem ranking_eq (peers : List PeerSnapshot) : ranking peers = (standing peers).map (·.id) := rfl

theorem standing_perm (peers : List PeerSnapshot) :
    (standing peers).Perm (peers.filter (·.interested)) := List.perm_insertionSort _ _

theorem nodup_standing (hids : (peers.map (·.id)).Nodup) : ((standing peers).map (·.id)).Nodup :=
  ((standing_perm peers).map _).nodup_iff.2 (hids.sublist (List.filter_sublist.map _))

theorem pairwise_standing (hids : (peers.map (·.id)).Nodup) :
    (standing peers).Pairwise Outranks := by
  have hsorted := List.pairwise_insertionSort (fun a b : PeerSnapshot => ranksBefore a b = true)
    (peers.filter (·.interested))
  refine (hsorted.and (List.pairwise_map.1 (nodup_standing hids))).imp ?_
  rintro a b ⟨hle, hne⟩
  simp only [ranksBefore, Bool.or_eq_true, Bool.and_eq_true, decide_eq_true_eq, beq_iff_eq] at hle
  unfold Outranks
  omega

/-! ## Who is given a slot -/

/-- The candidates for the optimistic slot are the interested peers past the best. -/
theorem candidates_eq (hids : (peers.map (·.id)).Nodup) :
    (ranking peers).filter (· ∉ (ranking peers).take maxUnchoked) =
      (ranking peers).drop maxUnchoked := by
  have hnodup : (ranking peers).Nodup := nodup_standing hids
  rw [← List.take_append_drop maxUnchoked (ranking peers), List.nodup_append] at hnodup
  conv_lhs => rw [← List.take_append_drop maxUnchoked (ranking peers)]
  rw [List.filter_append, List.take_append_drop]
  have hbest : ((ranking peers).take maxUnchoked).filter
      (· ∉ (ranking peers).take maxUnchoked) = [] :=
    List.filter_eq_nil_iff.2 fun id hid => by simpa using hid
  have hrest : ((ranking peers).drop maxUnchoked).filter
      (· ∉ (ranking peers).take maxUnchoked) = (ranking peers).drop maxUnchoked :=
    List.filter_eq_self.2 fun id hid => by
      simpa using fun hbest => hnodup.2.2 id hbest id hid rfl
  rw [hbest, hrest, List.nil_append]

/-- On an ordinary round, or when there is room for all, the best are chosen. -/
theorem chosen_of_ordinary (hids : (peers.map (·.id)).Nodup)
    (h : ¬ (round % 3 = 0 ∧ maxUnchoked < (ranking peers).length)) :
    chosen maxUnchoked round peers = (ranking peers).take maxUnchoked := by
  unfold chosen
  simp only [candidates_eq hids]
  split
  · rename_i hround
    have hroom : (ranking peers).length ≤ maxUnchoked := by
      by_contra hmore
      exact h ⟨hround, Nat.not_le.1 hmore⟩
    rw [List.drop_of_length_le hroom]
    rfl
  · rfl

/-- On an optimistic round with more interested than slots, the last of the best makes way for
the one whose turn it is. -/
theorem chosen_of_optimistic (hids : (peers.map (·.id)).Nodup) (hround : round % 3 = 0)
    (hmore : maxUnchoked < (ranking peers).length) :
    ∃ pick, ((ranking peers).drop maxUnchoked)[round / 3 %
        ((ranking peers).drop maxUnchoked).length]? = some pick ∧
      chosen maxUnchoked round peers =
        ((ranking peers).take maxUnchoked).dropLast ++ [pick] := by
  have hpos : 0 < ((ranking peers).drop maxUnchoked).length := by
    rw [List.length_drop]
    omega
  have hget := List.getElem?_eq_getElem (Nat.mod_lt (round / 3) hpos)
  refine ⟨_, hget, ?_⟩
  unfold chosen
  simp only [candidates_eq hids, if_pos hround, hget]
  rw [if_pos (by rw [List.length_take]; omega)]

/-! ## The decision -/

theorem mem_unchoke {c : Choker} {id : Nat} : id ∈ (c.plan peers).2.unchoke ↔
    id ∈ chosen c.maxUnchoked (c.round + 1) peers ∧ ∃ p ∈ peers, p.id = id ∧ p.unchoked = false := by
  simp only [plan, List.mem_map, List.mem_filter, Bool.and_eq_true, decide_eq_true_eq,
    Bool.not_eq_true']
  constructor
  · rintro ⟨p, ⟨hp, hchosen, hchoked⟩, rfl⟩
    exact ⟨hchosen, p, hp, rfl, hchoked⟩
  · rintro ⟨hchosen, p, hp, rfl, hchoked⟩
    exact ⟨p, ⟨hp, hchosen, hchoked⟩, rfl⟩

theorem mem_choke {c : Choker} {id : Nat} : id ∈ (c.plan peers).2.choke ↔
    id ∉ chosen c.maxUnchoked (c.round + 1) peers ∧ ∃ p ∈ peers, p.id = id ∧ p.unchoked = true := by
  simp only [plan, List.mem_map, List.mem_filter, Bool.and_eq_true, decide_eq_true_eq]
  constructor
  · rintro ⟨p, ⟨hp, hchosen, hunchoked⟩, rfl⟩
    exact ⟨hchosen, p, hp, rfl, hunchoked⟩
  · rintro ⟨hchosen, p, hp, rfl, hunchoked⟩
    exact ⟨p, ⟨hp, hchosen, hunchoked⟩, rfl⟩

/-- Once the decision is applied, exactly the chosen are unchoked. -/
theorem mem_unchokedAfter {c : Choker} {id : Nat} :
    id ∈ unchokedAfter (c.plan peers).2 peers ↔
      id ∈ chosen c.maxUnchoked (c.round + 1) peers := by
  simp only [unchokedAfter, List.mem_map, List.mem_filter, Bool.or_eq_true, Bool.and_eq_true,
    decide_eq_true_eq, mem_unchoke, mem_choke]
  constructor
  · rintro ⟨p, ⟨hp, hchosen | ⟨hunchoked, hkept⟩⟩, rfl⟩
    · exact hchosen.1
    · by_contra hnot
      exact hkept ⟨hnot, p, hp, rfl, hunchoked⟩
  · intro hchosen
    obtain ⟨p, hp, -, rfl⟩ := interested_of_mem_chosen hchosen
    refine ⟨p, ⟨hp, ?_⟩, rfl⟩
    cases hunchoked : p.unchoked with
    | false => exact .inl ⟨hchosen, p, hp, rfl, hunchoked⟩
    | true => exact .inr ⟨rfl, fun h => h.1 hchosen⟩

/-- What a round does.  `order` is the interested peers by rate and then id. -/
structure RoundExact (c : Choker) (peers order : List PeerSnapshot) : Prop where
  counted : (c.plan peers).1 = { c with round := c.round + 1 }
  perm : order.Perm (peers.filter (·.interested))
  sorted : order.Pairwise Outranks
  ordinary : ¬ (3 ∣ c.round + 1 ∧ c.maxUnchoked < order.length) → ∀ id,
    id ∈ unchokedAfter (c.plan peers).2 peers ↔ ∃ p ∈ order.take c.maxUnchoked, p.id = id
  optimistic : 3 ∣ c.round + 1 → c.maxUnchoked < order.length →
    ∃ pick ∈ order.drop c.maxUnchoked, ∀ id, id ∈ unchokedAfter (c.plan peers).2 peers ↔
      (∃ p ∈ (order.take c.maxUnchoked).dropLast, p.id = id) ∨ pick.id = id
  disjoint : ∀ id ∈ (c.plan peers).2.unchoke, id ∉ (c.plan peers).2.choke
  unchokes : ∀ id ∈ (c.plan peers).2.unchoke, id ∈ unchokedAfter (c.plan peers).2 peers ∧
    ∃ p ∈ peers, p.id = id ∧ p.unchoked = false
  chokes : ∀ id ∈ (c.plan peers).2.choke, id ∉ unchokedAfter (c.plan peers).2 peers ∧
    ∃ p ∈ peers, p.id = id ∧ p.unchoked = true

theorem roundExact (c : Choker) (hids : (peers.map (·.id)).Nodup) :
    RoundExact c peers (standing peers) := by
  have hlength : (ranking peers).length = (standing peers).length := List.length_map _
  refine ⟨rfl, standing_perm peers, pairwise_standing hids, ?_, ?_, ?_, ?_, ?_⟩
  · intro h id
    rw [Nat.dvd_iff_mod_eq_zero, ← hlength] at h
    rw [mem_unchokedAfter, chosen_of_ordinary hids h, ranking_eq, ← List.map_take, List.mem_map]
  · intro hround hmore
    obtain ⟨id', hget, hchosen⟩ := chosen_of_optimistic hids
      (Nat.dvd_iff_mod_eq_zero.1 hround) (hlength ▸ hmore)
    rw [ranking_eq, ← List.map_drop] at hget
    obtain ⟨pick, hpick, rfl⟩ := List.mem_map.1 (List.mem_of_getElem? hget)
    refine ⟨pick, hpick, fun id => ?_⟩
    rw [mem_unchokedAfter, hchosen, ranking_eq, ← List.map_take, ← List.map_dropLast,
      List.mem_append, List.mem_map, List.mem_singleton, eq_comm (a := id)]
  · exact fun id hunchoke hchoke => (mem_choke.1 hchoke).1 (mem_unchoke.1 hunchoke).1
  · intro id hunchoke
    rw [mem_unchokedAfter]
    exact mem_unchoke.1 hunchoke
  · intro id hchoke
    rw [mem_unchokedAfter]
    exact mem_choke.1 hchoke

/-! ## By rank -/

instance : DecidableRel Outranks := fun _ _ => inferInstanceAs (Decidable (_ ∨ _))

/-- How many of the interested peers outrank this one. -/
def ahead (peers : List PeerSnapshot) (p : PeerSnapshot) : Nat :=
  peers.countP fun q => q.interested && decide (Outranks q p)

/-- Whether an interested peer is due a slot, by the number of those ahead of it: it is one of
the best, or on an optimistic round the one past them whose turn it is. -/
def Earns (maxUnchoked round : Nat) (peers : List PeerSnapshot) (p : PeerSnapshot) : Prop :=
  if round % 3 = 0 ∧ maxUnchoked < peers.countP (·.interested) then
    ahead peers p + 1 < maxUnchoked ∨
      ahead peers p = maxUnchoked + round / 3 % (peers.countP (·.interested) - maxUnchoked)
  else ahead peers p < maxUnchoked

instance (p : PeerSnapshot) : Decidable (Earns maxUnchoked round peers p) := by
  unfold Earns
  infer_instance

theorem length_ranking : (ranking peers).length = peers.countP (·.interested) := by
  rw [ranking_eq, List.length_map, (standing_perm peers).length_eq, List.countP_eq_length_filter]

/-- The place of a peer in the standing. -/
theorem getElem?_ranking (hids : (peers.map (·.id)).Nodup) {p : PeerSnapshot} (hp : p ∈ peers)
    (hinterested : p.interested = true) : (ranking peers)[ahead peers p]? = some p.id := by
  have hmem : p ∈ standing peers :=
    (standing_perm peers).mem_iff.2 (List.mem_filter.2 ⟨hp, hinterested⟩)
  obtain ⟨i, hi⟩ := List.mem_iff_getElem?.1 hmem
  have hcount : ahead peers p = i := by
    have hasymm : ∀ a b, decide (Outranks a b) = true → decide (Outranks b a) = false := by
      refine fun a b hab => decide_eq_false fun hba => ?_
      have hab := of_decide_eq_true hab
      unfold Outranks at hab hba
      omega
    have hplace := Lists.countP_before hasymm
      ((pairwise_standing hids).imp fun h => decide_eq_true h) hi
    rw [← hplace, (standing_perm peers).countP_eq, List.countP_filter]
    exact List.countP_congr fun q _ => by simp [and_comm]
  rw [hcount, ranking_eq, List.getElem?_map, hi]
  rfl

/-- A round gives an interested peer a slot exactly if its rank earns it one. -/
theorem mem_chosen_iff (hids : (peers.map (·.id)).Nodup) {p : PeerSnapshot} (hp : p ∈ peers)
    (hinterested : p.interested = true) :
    p.id ∈ chosen maxUnchoked round peers ↔ Earns maxUnchoked round peers p := by
  have hnodup : (ranking peers).Nodup := nodup_standing hids
  have hplace := getElem?_ranking hids hp hinterested
  unfold Earns
  rw [← length_ranking]
  split
  · rename_i hround
    obtain ⟨pick, hget, hchosen⟩ := chosen_of_optimistic hids hround.1 hround.2
    rw [List.getElem?_drop, List.length_drop] at hget
    rw [hchosen, List.dropLast_take hround.2, List.mem_append, List.mem_singleton,
      Lists.mem_take_iff_of_nodup hnodup hplace, Nat.lt_sub_iff_add_lt]
    refine or_congr_right ⟨fun hid => ?_, fun hturn => ?_⟩
    · rw [← hid] at hget
      exact (List.getElem?_inj (List.getElem?_eq_some_iff.1 hplace).1 hnodup).1
        (hplace.trans hget.symm)
    · rw [hturn] at hplace
      exact Option.some.inj (hplace.symm.trans hget)
  · rename_i hround
    rw [chosen_of_ordinary hids hround, Lists.mem_take_iff_of_nodup hnodup hplace]

/-! ## Taking turns -/

/-- The scheduler after some rounds, given what each of them sees. -/
def afterRounds (c : Choker) (peersAt : Nat → List PeerSnapshot) : Nat → Choker
  | 0 => c
  | n + 1 => ((afterRounds c peersAt n).plan (peersAt n)).1

theorem afterRounds_eq (c : Choker) (peersAt : Nat → List PeerSnapshot) (n : Nat) :
    c.afterRounds peersAt n = { c with round := c.round + n } := by
  induction n with
  | zero => rfl
  | succ n ih => rw [afterRounds, ih]; rfl

/-- Among `k` numbers in a row, one leaves a given remainder. -/
theorem turn_exists (q : Nat) {i k : Nat} (hi : i < k) :
    ∃ t, q < t ∧ t ≤ q + k ∧ t % k = i := by
  have hmod : (q + 1) % k < k := Nat.mod_lt _ (by omega)
  have hoff : (i + (k - (q + 1) % k)) % k < k := Nat.mod_lt _ (by omega)
  refine ⟨q + 1 + (i + (k - (q + 1) % k)) % k, by omega, by omega, ?_⟩
  have hsum : (q + 1) % k + (i + (k - (q + 1) % k)) = i + k := by omega
  calc (q + 1 + (i + (k - (q + 1) % k)) % k) % k
      = ((q + 1) % k + (i + (k - (q + 1) % k))) % k := by rw [Nat.add_mod_mod, Nat.mod_add_mod]
    _ = i := by rw [hsum, Nat.add_mod_right, Nat.mod_eq_of_lt hi]

/-- And only one. -/
theorem turn_unique {q t t' k : Nat} (ht : q < t) (htk : t ≤ q + k) (ht' : q < t')
    (htk' : t' ≤ q + k) (h : t % k = t' % k) : t = t' := by
  rcases Nat.lt_trichotomy t t' with hlt | heq | hlt
  · have hdvd := (Nat.modEq_iff_dvd' hlt.le).1 h
    have := Nat.le_of_dvd (by omega) hdvd
    omega
  · exact heq
  · have hdvd := (Nat.modEq_iff_dvd' hlt.le).1 h.symm
    have := Nat.le_of_dvd (by omega) hdvd
    omega

/-- The interested peers past the best. -/
def outside (maxUnchoked : Nat) (peers : List PeerSnapshot) : List Nat :=
  ((standing peers).drop maxUnchoked).map (·.id)

/-- Who has the optimistic slot among those outside the best. -/
theorem mem_unchokedAfter_of_outside {c : Choker} (hids : (peers.map (·.id)).Nodup) {id : Nat}
    (hid : id ∈ outside c.maxUnchoked peers) :
    id ∈ unchokedAfter (c.plan peers).2 peers ↔ (c.round + 1) % 3 = 0 ∧
      (outside c.maxUnchoked peers)[(c.round + 1) / 3 % (outside c.maxUnchoked peers).length]? =
        some id := by
  have houtside : outside c.maxUnchoked peers = (ranking peers).drop c.maxUnchoked := by
    rw [outside, ranking_eq, List.map_drop]
  have hnodup : (ranking peers).Nodup := nodup_standing hids
  rw [← List.take_append_drop c.maxUnchoked (ranking peers), List.nodup_append] at hnodup
  rw [houtside] at hid ⊢
  have hmore : c.maxUnchoked < (ranking peers).length := by
    have := List.length_pos_of_mem hid
    rw [List.length_drop] at this
    omega
  have hnotBest : id ∉ (ranking peers).take c.maxUnchoked := fun hbest =>
    hnodup.2.2 id hbest id hid rfl
  rw [mem_unchokedAfter]
  by_cases hround : (c.round + 1) % 3 = 0
  · obtain ⟨pick, hget, hchosen⟩ := chosen_of_optimistic hids hround hmore
    rw [hchosen, hget, List.mem_append, List.mem_singleton]
    constructor
    · rintro (hbest | rfl)
      · exact absurd (List.mem_of_mem_dropLast hbest) hnotBest
      · exact ⟨hround, rfl⟩
    · rintro ⟨-, hpick⟩
      exact .inr (Option.some.inj hpick).symm
  · rw [chosen_of_ordinary hids fun h => hround h.1]
    exact ⟨fun hbest => absurd hbest hnotBest, fun h => absurd h.1 hround⟩

/-- A round is exact, and the optimistic slot is fair: over the `k` optimistic rounds among any
`3 * k` in a row, if those outside the best are the same `k` each time, each of them is given the
slot in exactly one. -/
theorem rounds_exact_fair (c : Choker) :
    (∀ peers, (peers.map (·.id)).Nodup → ∃ order, RoundExact c peers order) ∧
    ∀ (peersAt : Nat → List PeerSnapshot) (others : List Nat),
      (∀ n, ((peersAt n).map (·.id)).Nodup) →
      (∀ n < 3 * others.length, 3 ∣ c.round + n + 1 → outside c.maxUnchoked (peersAt n) = others) →
      ∀ id ∈ others, ∃! n, n < 3 * others.length ∧ 3 ∣ c.round + n + 1 ∧
        id ∈ unchokedAfter ((c.afterRounds peersAt n).plan (peersAt n)).2 (peersAt n) := by
  refine ⟨fun peers hids => ⟨_, roundExact c hids⟩, fun peersAt others hids hsame id hid => ?_⟩
  obtain ⟨i, hi, rfl⟩ := List.mem_iff_getElem.1 hid
  -- Where the slot goes on an optimistic round.
  have hslot : ∀ n < 3 * others.length, 3 ∣ c.round + n + 1 →
      (others[i] ∈ unchokedAfter ((c.afterRounds peersAt n).plan (peersAt n)).2 (peersAt n) ↔
        (c.round + n + 1) / 3 % others.length = i) := by
    intro n hn hround
    have hothers := hsame n hn hround
    have hnodup : others.Nodup := by
      rw [← hothers, outside, List.map_drop]
      exact (nodup_standing (hids n)).sublist (List.drop_sublist _ _)
    have hlt : (c.round + n + 1) / 3 % others.length < others.length := Nat.mod_lt _ (by omega)
    have hmem : others[i] ∈ outside c.maxUnchoked (peersAt n) := by
      rw [hothers]
      exact List.getElem_mem hi
    rw [afterRounds_eq]
    refine (mem_unchokedAfter_of_outside (c := ⟨c.maxUnchoked, c.round + n⟩) (hids n) hmem).trans ?_
    simp only [hothers, Nat.dvd_iff_mod_eq_zero.1 hround, true_and,
      List.getElem?_eq_getElem hlt, Option.some.injEq]
    exact hnodup.getElem_inj_iff
  obtain ⟨t, hlow, hhigh, hturn⟩ := turn_exists (c.round / 3) hi
  have hn : 3 * t - c.round - 1 < 3 * others.length := by omega
  have hround : c.round + (3 * t - c.round - 1) + 1 = 3 * t := by omega
  have hdvd : 3 ∣ c.round + (3 * t - c.round - 1) + 1 := Dvd.intro t hround.symm
  refine ⟨3 * t - c.round - 1, ⟨hn, hdvd, ?_⟩, ?_⟩
  · rw [hslot _ hn hdvd, hround, Nat.mul_div_cancel_left t (by decide)]
    exact hturn
  · rintro n ⟨hn', hround', hmem⟩
    rw [hslot n hn' hround'] at hmem
    have hsame : t = (c.round + n + 1) / 3 :=
      turn_unique hlow hhigh (by omega) (by omega) (hturn.trans hmem.symm)
    omega

/-- One slot, one fast peer and two that take turns. -/
theorem rounds_exact_fair_two :
    let peers : List PeerSnapshot := [⟨0, true, 9, true⟩, ⟨1, true, 0, false⟩, ⟨2, true, 0, false⟩]
    (∃ order, RoundExact (Choker.new 1) peers order) ∧
      ∃! n, n < 6 ∧ 3 ∣ 0 + n + 1 ∧
        2 ∈ unchokedAfter (((Choker.new 1).afterRounds (fun _ => peers) n).plan peers).2 peers :=
  ⟨(rounds_exact_fair (Choker.new 1)).1 _ (by decide),
    (rounds_exact_fair (Choker.new 1)).2 (fun _ => _) [1, 2] (fun _ => by decide)
      (fun _ _ _ => by decide) 2 (by decide)⟩

end Choker

end Clove
