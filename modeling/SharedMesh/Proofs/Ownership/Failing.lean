import Mathlib.Data.List.Permutation
import SharedMesh.Proofs.Collective.Stages
import SharedMesh.Proofs.Ownership.References
import SharedMesh.Proofs.Ownership.Resolving

/-!
# Operations fail together

The ranks plan routes, resolve copies, find owners and number entities together, with any
arguments: lists of the wrong lengths, records that denote nothing, targets that are not there,
wishes that conflict, policies that choose nobody. Whatever a rank may find wrong with these is
checked at a stage that all ranks take (`Operation.stages`), so that they all succeed or all
fail (`operation_failsTogether`).

Records, and the roots that copies meet at, are checked independently of each other. If a rank
finds several of them wrong, it may report any of these (`recordFaults`, `settleFaults`).

What is not checked together is whether a rank can hold what it plans and carries. A rank that
cannot stops by itself (`not_operation_failsTogether_of_words`).
-/

namespace SharedMesh

open Route

variable {κ β : Type} {n : Nat}

/-! ## Planning -/

namespace Route

variable {targets : Nat → List Place} {roots : Nat → Nat}

/-- The ranks check that the ranks they name are there, and then that the roots are. -/
def planStages (n : Nat) (targets : Nat → List Place) (roots : Nat → Nat) : List Stage :=
  [.of .routeRanks fun r => checkTargets n (targets r),
    .of .routeRoots fun r => checkRoots r (roots r) (arriving n targets r)]

/-- Targets that pass the checks are there. -/
theorem sound_of_checks (htargets : ∀ r < n, checkTargets n (targets r) = .ok ())
    (hroots : ∀ r < n, checkRoots r (roots r) (arriving n targets r) = .ok ()) :
    Sound n targets roots := by
  have hrank : ∀ r < n, ∀ p ∈ targets r, p.rank < n := by
    intro r hr p hp
    by_contra hge
    obtain ⟨e, he⟩ := checkTargets_eq_error hp (Nat.le_of_not_lt hge)
    rw [htargets r hr] at he
    cases he
  refine ⟨hrank, fun r hr p hp => ?_⟩
  by_contra hge
  obtain ⟨a, ha, hroot⟩ := exists_mem_arriving hr hp
  obtain ⟨e, he⟩ : ∃ e, checkRoots p.rank (roots p.rank) (arriving n targets p.rank) = .error e :=
    checkRoots_eq_error ha (hroot ▸ Nat.le_of_not_lt hge)
  rw [hroots _ (hrank r hr p hp)] at he
  cases he

/-- If the targets are not all there, planning fails at one of its stages. -/
theorem failsTogether_of_refusal {α : Type} {stages : List Stage} (h : ¬ Sound n targets roots)
    {e : Nat → MeshError} (he : ∀ r < n, refusal n targets roots r = .error (e r)) :
    FailsTogether n (planStages n targets roots ++ stages)
      fun r => (.error (e r) : Checked α) := by
  by_cases htargets : ∀ r < n, checkTargets n (targets r) = .ok ()
  · obtain ⟨s, hs, hfails⟩ :
        ∃ s < n, checkRoots s (roots s) (arriving n targets s) ≠ .ok () := by
      by_contra hnone
      push Not at hnone
      exact h (sound_of_checks htargets hnone)
    refine .of_passed (Stage.passed_of htargets) (.of_agreed
      (fun r _ => (checkRoots r (roots r) (arriving n targets r)).reports_faults) hs
      (mt (Checked.reports_faults _).eq_nil_iff.1 fun ⟨_, hok⟩ => hfails hok) fun r hr => ?_)
    have := he r hr
    rwa [refusal, bind_of_ok (agreed_ok htargets hr)] at this
  · push Not at htargets
    obtain ⟨s, hs, hfails⟩ := htargets
    obtain ⟨e', hcheck⟩ : ∃ e', checkTargets n (targets s) = .error e' := by
      cases hcheck : checkTargets n (targets s) with
      | ok u => exact absurd hcheck hfails
      | error e' => exact ⟨e', rfl⟩
    refine .of_agreed (fun r _ => (checkTargets n (targets r)).reports_faults) hs
      ((Checked.reports_faults _).ne_nil_iff.2 ⟨e', hcheck⟩) fun r hr => ?_
    obtain ⟨e', he'⟩ : ∃ e', agreed n .routeRanks (fun s => checkTargets n (targets s)) r =
        .error e' := agreed_eq_error .routeRanks hs hcheck r
    have := he r hr
    rw [refusal, he'] at this
    exact he'.trans this

variable [Alphabet κ] [LawfulAlphabet κ]

/-- The ranks plan, and go on if all targets are there. -/
theorem plan_staged {f : Nat → Route → Proc κ β} {stages : List Stage}
    (hindex : ∀ r < n, ∀ p ∈ targets r, p.index < 2 ^ 64)
    (hlength : ∀ r < n, (targets r).length < 2 ^ 64)
    (harrivals : (∀ r < n, ∀ p ∈ targets r, p.rank < n) →
      ∀ r < n, (arriving n targets r).length * 32 < 2 ^ 63)
    (hf : Sound n targets roots → Fits n targets roots ∧
      Staged n stages fun r => (f r (planned n targets roots r)).toProgram) :
    Staged n (planStages n targets roots ++ stages)
      fun r => (plan (Seat.of r n) (targets r) (roots r) >>= f r).toProgram := by
  by_cases h : Sound n targets roots
  · obtain ⟨hfits, results, htogether, hfails⟩ := hf h
    exact ⟨results, (plan_together h hfits).andThen htogether,
      .of_passed (Stage.passed_of fun r hr => checkTargets_eq_ok h hr)
        (hfails.of_passed (Stage.passed_of fun r _ => checkRoots_eq_ok h r))⟩
  · obtain ⟨e, he, hplan⟩ :=
      plan_together_of_not_sound (κ := κ) h hindex hlength harrivals
    exact ⟨_, hplan.orFail, failsTogether_of_refusal h he⟩

end Route

/-! ## Settling what is served -/

section

variable {width : Nat} {servers : Nat → List Place} {served : Nat → Nat}
  {keys : Nat → List (List Nat)} {wishes : Option (Nat → List Nat)} {policy : Nat → OwnerPolicy}

/-- The copies that a rank serves. Without wishes, zeros take their place. -/
def servedCopies (n : Nat) (servers : Nat → List Place) (served : Nat → Nat)
    (keys : Nat → List (List Nat)) (wishes : Option (Nat → List Nat)) (r : Nat) : List Served :=
  let routes := planned n servers served
  let origins := (routes r).far.places
  Served.list origins (delivered routes keys r) (match wishes with
    | some wishes => (delivered routes (fun s => (wishes s).map fun wish => [wish]) r).flatten
    | none => origins.map fun _ => 0)

/-- The owners of the copies that a rank serves, as the copies wish or by its policy. -/
def settled (n : Nat) (servers : Nat → List Place) (served : Nat → Nat)
    (keys : Nat → List (List Nat)) (wishes : Option (Nat → List Nat))
    (policy : Nat → OwnerPolicy) (r : Nat) : Checked (List Place) :=
  settle (if wishes.isSome then byWish else byPolicy (policy r))
    (planned n servers served r).far.fanCounts (servedCopies n servers served keys wishes r)

/-- The ranks settle the copies that they serve. -/
def settleStage (n : Nat) (servers : Nat → List Place) (served : Nat → Nat)
    (keys : Nat → List (List Nat)) (wishes : Option (Nat → List Nat))
    (policy : Nat → OwnerPolicy) : Stage :=
  ⟨.duplicateOwners, fun r => settleFaults (if wishes.isSome then byWish else byPolicy (policy r))
    (planned n servers served r).far.fanCounts (servedCopies n servers served keys wishes r)⟩

theorem error_of_mem_settleStage {r : Nat} {e : MeshError}
    (h : e ∈ (settleStage n servers served keys wishes policy).faults r) :
    ∃ vertex owner, e = .unresolved vertex owner :=
  error_of_mem_settleFaults h

/-- The items send their keys, and wishes if they have any, to the servers, where owners are
    found and sent back. -/
def serve [Alphabet κ] (seat : Seat) (servers : List Place) (served width : Nat)
    (numbers : List Nat) (wishes : Option (List Nat)) (policy : OwnerPolicy) :
    Proc κ (List Place) := do
  let route ← Route.plan seat servers served
  let keys ← route.carryNumbers seat width numbers
  let back := route.reverse
  let origins := back.near.places
  match wishes with
  | some wishes =>
    let wanted ← route.carryNumbers seat 1 wishes
    settleServed seat back byWish (Served.list origins (rows width keys) wanted)
  | none =>
    settleServed seat back (byPolicy policy)
      (Served.list origins (rows width keys) (origins.map fun _ => 0))

/-- Every rank has a wish for each item, if any has. -/
def WishesFor (n : Nat) (servers : Nat → List Place) : Option (Nat → List Nat) → Prop
  | some wishes => ∀ r < n, (wishes r).length = (servers r).length ∧ ∀ w ∈ wishes r, w < 2 ^ 64
  | none => True

theorem length_delivered {T : Type} (items : Nat → List (List T)) (r : Nat) :
    (delivered (planned n servers served) items r).length =
      (copies n servers r (served r)).length := by
  rw [delivered_planned, List.length_map]

theorem WishesFor.records {wishes : Nat → List Nat} (h : WishesFor n servers (some wishes)) :
    Records n (fun r => (planned n servers served r).near) 1
      fun r => (wishes r).map fun wish => [wish] := by
  refine fun r hr => ⟨by rw [List.length_map, itemCount_planned, (h r hr).1], fun record hw => ?_⟩
  obtain ⟨wish, _, rfl⟩ := List.mem_map.1 hw
  rfl

/-- The fan of the copies counts all of them. -/
theorem sum_fanCounts_planned (r : Nat) : (planned n servers served r).far.fanCounts.sum =
    (copies n servers r (served r)).length := by
  rw [fanCounts_planned, copies, List.length_flatMap]

theorem length_servedCopies (hsound : Sound n servers served) (hwishes : WishesFor n servers wishes)
    {r : Nat} (hr : r < n) : (servedCopies n servers served keys wishes r).length =
      (copies n servers r (served r)).length := by
  cases wishes with
  | none => simp [servedCopies, Served.list, length_delivered, places_planned]
  | some wishes =>
    have hrecords := records_delivered (paired_planned hsound) hwishes.records r hr
    have hwanted : ((delivered (planned n servers served)
        (fun s => (wishes s).map fun wish => [wish]) r).flatten).length =
          (copies n servers r (served r)).length := by
      rw [length_flatten_of_width hrecords.2, length_delivered, Nat.mul_one]
    simp [servedCopies, Served.list, length_delivered, places_planned, hwanted]

variable [Alphabet κ] [LawfulAlphabet κ]

/-- The wishes of all items get to the copies. -/
theorem carryWishes_together {wishes : Nat → List Nat} (hsound : Sound n servers served)
    (hroom : HasRoom κ UInt64 n (planned n servers served) 1)
    (hwishes : WishesFor n servers (some wishes)) : Together n (List.range n)
      (fun r => ((planned n servers served r).carryNumbers (κ := κ) (Seat.of r n) 1
        (wishes r)).toProgram)
      fun r => .ok (delivered (planned n servers served)
        (fun s => (wishes s).map fun wish => [wish]) r).flatten := by
  have hlt : ∀ r < n, ∀ record ∈ (wishes r).map (fun wish => [wish]), ∀ w ∈ record, w < 2 ^ 64 := by
    intro r hr record hrecord w hw
    obtain ⟨wish, hwish, rfl⟩ := List.mem_map.1 hrecord
    rw [List.mem_singleton.1 hw]
    exact (hwishes r hr).2 wish hwish
  have hcarried := carryNumbers_together (paired_planned hsound) Nat.one_pos hroom hwishes.records
    hlt
  simp only [flatten_singletons, List.map_id'] at hcarried
  exact hcarried

/-- The ranks report the owners, if all copies that are served have one. -/
theorem report_staged (hsound : Sound n servers served) (hroom : ServingRoom n width servers served)
    (hwishes : WishesFor n servers wishes) :
    Staged n [settleStage n servers served keys wishes policy]
      fun r => (reportOwners (κ := κ) (Seat.of r n) (planned n servers served r).reverse
        (settled n servers served keys wishes policy r)).toProgram := by
  refine Staged.allPass (settleStage n servers served keys wishes policy)
    (fun r _ => settle_reports _ _ _) fun owners howners => .ok (carryCoded_together
      (paired_planned hsound).reverse hroom.owners_room.reverse fun r hr => ?_)
  have hlength : (servedCopies n servers served keys wishes r).length =
      (copies n servers r (served r)).length := length_servedCopies hsound hwishes hr
  exact (length_of_settle ((sum_fanCounts_planned r).trans hlength.symm) (howners r hr)).trans
    (hlength.trans (itemCount_far_planned r).symm)

/-- The ranks settle what they serve, if they can hold what the roots settle on. -/
theorem settle_staged (hsound : Sound n servers served) (hroom : ServingRoom n width servers served)
    (hwishes : WishesFor n servers wishes) :
    Staged n [settleStage n servers served keys wishes policy]
      fun r => (settleServed (κ := κ) (Seat.of r n) (planned n servers served r).reverse
        (if wishes.isSome then byWish else byPolicy (policy r))
        (servedCopies n servers served keys wishes r)).toProgram :=
  (report_staged hsound hroom hwishes).imp fun _ => settleServed_together _ hroom.roots_room

/-- The ranks serve each other, and settle together. -/
theorem serve_staged (hsound : Sound n servers served) (hwidth : 0 < width)
    (hroom : ServingRoom n width servers served)
    (hkeys : ∀ r < n, (keys r).length = (servers r).length ∧ ∀ key ∈ keys r,
      key.length = width ∧ ∀ g ∈ key, g < 2 ^ 64) (hwishes : WishesFor n servers wishes) :
    Staged n [settleStage n servers served keys wishes policy]
      fun r => (serve (κ := κ) (Seat.of r n) (servers r) (served r) width (keys r).flatten
        (wishes.map (· r)) (policy r)).toProgram := by
  have hpaired := paired_planned hsound
  have hitems : Records n (fun r => (planned n servers served r).near) width keys := fun r hr =>
    ⟨by rw [itemCount_planned, (hkeys r hr).1], fun key hkey => ((hkeys r hr).2 key hkey).1⟩
  have hsettle : Staged n [settleStage n servers served keys wishes policy]
      fun r => (settleServed (κ := κ) (Seat.of r n) (planned n servers served r).reverse
        (if wishes.isSome then byWish else byPolicy (policy r))
        (servedCopies n servers served keys wishes r)).toProgram :=
    settle_staged hsound hroom hwishes
  refine Staged.after (plan_together hsound hroom.fits) ?_
  refine Staged.after (carryNumbers_together hpaired hwidth hroom.keys_room hitems
    fun r hr key hkey => ((hkeys r hr).2 key hkey).2) ?_
  have hrows : ∀ r < n, rows width (delivered (planned n servers served) keys r).flatten =
      delivered (planned n servers served) keys r := fun r hr =>
    rows_flatten hwidth (records_delivered hpaired hitems r hr).2
  cases wishes with
  | none =>
    refine hsettle.congr fun r hr => ?_
    rw [hrows r hr]
    rfl
  | some wishes =>
    refine Staged.after (carryWishes_together hsound (hroom.words_room hwidth) hwishes)
      (hsettle.congr fun r hr => ?_)
    rw [hrows r hr]
    rfl

end

/-! ## The operations -/

/-- An operation of all ranks, with the arguments of each. -/
inductive Operation
  /-- Planning a route. -/
  | plan (targets : Nat → List Place) (roots : Nat → Nat)
  /-- Resolving copies of derived entities. -/
  | resolve (degree : Nat) (vertices numbers : Nat → List Nat) (policy : Nat → OwnerPolicy)
  /-- Finding owners for global numbers. All ranks have wishes, or none has. -/
  | own (numbers : Nat → List Nat) (wishes : Option (Nat → List Nat)) (policy : Nat → OwnerPolicy)
  /-- Numbering entities that have owners. -/
  | number (owners : Nat → List Place)

namespace Operation

/-- What a rank gets from an operation. -/
def Result : Operation → Type
  | plan .. => Route
  | resolve .. => Resolved
  | own .. => List Place
  | number .. => List Nat

/-- The part of one rank in an operation. -/
def run [Alphabet κ] (seat : Seat) : (op : Operation) → Proc κ op.Result
  | plan targets roots => Route.plan seat (targets seat.rank) (roots seat.rank)
  | resolve degree vertices numbers policy =>
    resolveCopies seat (numbers seat.rank) degree (vertices seat.rank) (policy seat.rank)
  | own numbers wishes policy =>
    ownersOfNumbers seat (numbers seat.rank) (wishes.map (· seat.rank)) (policy seat.rank)
  | number owners => numberOwned seat (owners seat.rank)

/-- The servers of keys, by the first numbers of these. -/
def servers (n : Nat) (numbers : Nat → List Nat) (keys : Nat → List (List Nat)) (r : Nat) :
    List Place :=
  (keys r).map (homeOf n numbers)

/-- What the ranks check together, in order. -/
def stages (n : Nat) : Operation → List Stage
  | plan targets roots => planStages n targets roots
  | resolve degree vertices numbers policy =>
    let keys (r : Nat) : List (List Nat) := recordKeys degree (vertices r) (numbers r)
    [⟨.derivedRecords, fun r => recordFaults degree (vertices r) (numbers r)⟩,
      settleStage n (servers n numbers keys) (sharesOf n numbers).length keys none policy]
  | own numbers wishes policy =>
    let keys (r : Nat) : List (List Nat) := numberKeys (numbers r)
    [.of .ownRanks fun r => checkWishes (numbers r) (wishes.map (· r)),
      settleStage n (servers n numbers keys) (sharesOf n numbers).length keys wishes policy]
  | number owners =>
    planStages n owners (fun r => (owners r).length) ++
      [.of .ownerReferences fun r => checkReferences r
        (planned n owners (fun r => (owners r).length) r).reverse.near.fanCounts
        (ownedMask (Seat.of r n) (owners r))]

/-- The arguments are words, and so is one more than the total of global numbers. -/
def Words (n : Nat) : Operation → Prop
  | plan targets _ => ∀ r < n, (targets r).length < 2 ^ 64 ∧ ∀ p ∈ targets r, p.index < 2 ^ 64
  | resolve _ _ numbers _ => ∀ r < n, ∀ g ∈ numbers r, g < 2 ^ 64 - 2
  | own numbers wishes _ => (∀ r < n, ∀ g ∈ numbers r, g < 2 ^ 64 - 2) ∧
    ∀ list ∈ wishes, ∀ r < n, ∀ w ∈ list r, w < 2 ^ 64
  | number owners => ∀ r < n, (owners r).length < 2 ^ 64 ∧ ∀ p ∈ owners r, p.index < 2 ^ 64

/-- The ranks can hold what they plan and carry, once it is clear that there is something to
    plan. What is announced to a rank has to be held before its roots are checked. -/
def Room (n : Nat) : Operation → Prop
  | plan targets roots =>
    ((∀ r < n, ∀ p ∈ targets r, p.rank < n) →
      ∀ r < n, (arriving n targets r).length * 32 < 2 ^ 63) ∧
    (Sound n targets roots → Fits n targets roots)
  | resolve degree vertices numbers _ =>
    (∀ r < n, ∃ c, Canonical.ofRecords degree (vertices r) (numbers r) = .ok c) →
      ServingRoom n degree
        (servers n numbers fun r => recordKeys degree (vertices r) (numbers r))
        (sharesOf n numbers).length
  | own numbers wishes _ =>
    (∀ r < n, checkWishes (numbers r) (wishes.map (· r)) = .ok ()) →
      ServingRoom n 1 (servers n numbers fun r => numberKeys (numbers r))
        (sharesOf n numbers).length
  | number owners => NumberingRoom n owners

end Operation

section

variable [Alphabet κ] [LawfulAlphabet κ]

/-- Keys of known numbers are served at their homes. -/
theorem Keyed.serve_staged {width : Nat} {numbers : Nat → List Nat} {keys : Nat → List (List Nat)}
    (h : Keyed n width numbers keys) {wishes : Option (Nat → List Nat)}
    (policy : Nat → OwnerPolicy)
    (hroom : ServingRoom n width (Operation.servers n numbers keys) (sharesOf n numbers).length)
    (hwishes : WishesFor n (Operation.servers n numbers keys) wishes) :
    Staged n [settleStage n (Operation.servers n numbers keys) (sharesOf n numbers).length keys
        wishes policy]
      fun r => (do
        let total ← totalNumbers (Seat.of r n) (numbers r)
        let shares ← Proc.ofChecked (Shares.deal total n)
        let servers ← Proc.ofChecked (shares.holders ((keys r).map (List.headD · 0)))
        let served ← Proc.ofChecked (shares.count r)
        serve (Seat.of r n) servers served width (keys r).flatten (wishes.map (· r)) (policy r) :
          Proc κ (List Place)).toProgram := by
  have hsound : Sound n (Operation.servers n numbers keys) (sharesOf n numbers).length := by
    constructor <;> intro r hr p hp <;> obtain ⟨k, hk, rfl⟩ := List.mem_map.1 hp
    · exact Shares.rank_lt_size (Nat.zero_lt_of_lt hr) (h.head_lt hr hk)
    · exact Shares.index_lt_length (h.head_lt hr hk)
  refine (SharedMesh.serve_staged hsound h.width_pos hroom (fun r hr => ⟨(List.length_map _).symm,
    fun key hkey => ⟨h.length_key r hr key hkey, fun g hg => ?_⟩⟩) hwishes).imp fun _ hserve =>
      h.findHomes_together hserve
  have := h.number_lt r hr g (h.mem_numbers r hr key hkey g hg)
  omega

namespace Operation

theorem resolve_staged {degree : Nat} {vertices numbers : Nat → List Nat}
    {policy : Nat → OwnerPolicy} (hwords : (resolve degree vertices numbers policy).Words n)
    (hroom : (resolve degree vertices numbers policy).Room n) :
    Staged n ((resolve degree vertices numbers policy).stages n)
      fun r => (resolveCopies (κ := κ) (Seat.of r n) (numbers r) degree (vertices r)
        (policy r)).toProgram := by
  rcases Nat.eq_zero_or_pos n with rfl | hn
  · exact .ofNone _ _
  refine Staged.allPass ⟨.derivedRecords, _⟩
    (fun r _ => ofRecords_reports degree (vertices r) (numbers r)) fun canonical hcanonical => ?_
  have h : ∀ r < n, Acceptable degree (vertices r) (numbers r) := fun r hr =>
    acceptable_of_ofRecords (hcanonical r hr)
  have hrecords : ∀ r < n, canonical r = canonicalRecords degree (vertices r) (numbers r) :=
    fun r hr => Except.ok.inj ((hcanonical r hr).symm.trans (ofRecords_eq_ok (h r hr)))
  have hkeyed := keyed_recordKeys hwords h (h 0 hn).degree_pos
  have hwishes : WishesFor n (servers n numbers fun r =>
      recordKeys degree (vertices r) (numbers r)) none := trivial
  have hserve := hkeyed.serve_staged (κ := κ) policy (hroom fun r hr => ⟨_, hcanonical r hr⟩)
    hwishes
  refine (hserve.mapOk (g := fun r owners =>
    ⟨(canonical r).vertices, (canonical r).turns, owners⟩)).congr fun r hr => ?_
  rw [hrecords r hr, ← firstGlobals_canonicalRecords (h r hr)]
  simp only [serve, bind_assoc]
  rfl

theorem own_staged {numbers : Nat → List Nat} {wishes : Option (Nat → List Nat)}
    {policy : Nat → OwnerPolicy} (hwords : (own numbers wishes policy).Words n)
    (hroom : (own numbers wishes policy).Room n) :
    Staged n ((own numbers wishes policy).stages n)
      fun r => (ownersOfNumbers (κ := κ) (Seat.of r n) (numbers r) (wishes.map (· r))
        (policy r)).toProgram := by
  obtain ⟨hnumbers, hwords⟩ := hwords
  refine Staged.allPass _ (fun r _ => (checkWishes (numbers r) (wishes.map (· r))).reports_faults)
    fun _ hchecked => ?_
  have hwishes : WishesFor n (servers n numbers fun r => numberKeys (numbers r)) wishes := by
    cases wishes with
    | none => trivial
    | some list =>
      refine fun r hr => ⟨?_, hwords list rfl r hr⟩
      have hlength : (list r).length = (numbers r).length := by
        by_contra hne
        have := hchecked r hr
        rw [Option.map_some, checkWishes, if_pos hne] at this
        cases this
      rw [hlength, servers, List.length_map, numberKeys, List.length_map]
  have hserve := (keyed_numberKeys hnumbers).serve_staged (κ := κ) policy (hroom hchecked) hwishes
  simp only [headD_numberKeys, flatten_numberKeys] at hserve
  refine hserve.congr fun r _ => ?_
  cases wishes <;> rfl

theorem number_staged {owners : Nat → List Place} (hwords : (number owners).Words n)
    (hroom : NumberingRoom n owners) :
    Staged n ((number owners).stages n)
      fun r => (numberOwned (κ := κ) (Seat.of r n) (owners r)).toProgram := by
  refine Staged.after (countOwned_together hroom.total_lt) (plan_staged
    (fun r hr => (hwords r hr).2) (fun r hr => (hwords r hr).1) (fun _ => hroom.arrivals_room)
    fun hsound => ⟨hroom.fits, .allPass _ (fun _ _ => Checked.reports_faults _) fun _ _ => ?_⟩)
  have hanswer := (broadcast_together (κ := κ) hsound (fun _ => hroom.fits.items_lt) hroom.hasRoom
    fun p => UInt64.ofNat (ownNumber n owners p)).mapOk (g := fun _ words => words.map UInt64.toNat)
  refine (Staged.ok hanswer).congr fun r hr => ?_
  rw [numberFrom_ownedMask owners hr, List.map_map]
  rfl

end Operation

/-- Every operation ends on all ranks, whatever the order of sends and receives, and they all
    succeed or all fail. Then the ranks that find faults at the first stage that is not passed
    report one of theirs, and the others name the first of these ranks. -/
theorem operation_failsTogether (op : Operation) (hwords : op.Words n) (hroom : op.Room n) :
    ∃ results : Nat → Checked op.Result,
      (World.start ((List.range n).map fun r =>
        (op.run (κ := κ) (Seat.of r n)).toProgram)).Yields ((List.range n).map results) ∧
      FailsTogether n (op.stages n) results := by
  have hstaged : Staged n (op.stages n) fun r => (op.run (κ := κ) (Seat.of r n)).toProgram := by
    cases op with
    | plan targets roots =>
      have hplan := plan_staged (κ := κ) (f := fun _ route => pure route)
        (fun r hr => (hwords r hr).2) (fun r hr => (hwords r hr).1) hroom.1 fun hsound =>
          ⟨hroom.2 hsound, Staged.ok (a := planned n targets roots) (Together.done _)⟩
      simp only [bind_pure, List.append_nil] at hplan
      exact hplan
    | resolve => exact Operation.resolve_staged hwords hroom
    | own => exact Operation.own_staged hwords hroom
    | number => exact Operation.number_staged hwords hroom
  obtain ⟨results, htogether, hfails⟩ := hstaged
  exact ⟨results, htogether.yields, hfails⟩

end

/-- Two ranks that hold one entity, and both wish to own it. -/
def conflictingWishes : Operation := .own (fun _ => [4]) (some fun r => [r]) fun _ => .smallest

/-- The rank that serves the entity cannot settle it, and the other one names that rank. -/
theorem operation_failsTogether_conflictingWishes :
    conflictingWishes.Words 2 ∧ conflictingWishes.Room 2 ∧
      (World.start ((List.range 2).map fun r =>
        (conflictingWishes.run (κ := UInt8) (Seat.of r 2)).toProgram)).Yields
          [.error (.disagreement .duplicateOwners 1 1 0), .error (.unresolved 1 none)] := by
  have hwords : conflictingWishes.Words 2 := by
    refine ⟨by decide, fun list hlist => ?_⟩
    cases hlist
    decide
  have hroom : conflictingWishes.Room 2 := fun _ => ⟨by decide, by decide, by decide⟩
  obtain ⟨results, hyields, hfails⟩ := operation_failsTogether (κ := UInt8) conflictingWishes
    hwords hroom
  obtain ⟨own, serving, hstages, hown, hwhat, hzero, hone⟩ : ∃ own serving,
      conflictingWishes.stages 2 = [own, serving] ∧ own.Passed 2 ∧
        serving.what = .duplicateOwners ∧ serving.faults 0 = [] ∧
          serving.faults 1 = [.unresolved 1 none] :=
    ⟨_, _, rfl, fun _ _ => rfl, rfl, by decide +kernel, by
      simp only [settleStage, settleFaults, fanCounts_planned]
      cbv⟩
  have herror := hfails.error [own] [] serving 1 hstages (by simpa using hown) (by decide)
    (by simp [hone]) (fun r hr => by rw [Nat.lt_one_iff.1 hr, hzero])
  obtain ⟨e₀, he₀, hfaults₀⟩ := herror 0 (by decide)
  obtain ⟨e₁, he₁, hfaults₁⟩ := herror 1 (by decide)
  simp only [hzero, hwhat, List.not_mem_nil, true_and, false_or] at hfaults₀
  simp only [hone, List.mem_singleton, reduceCtorEq, false_and, or_false] at hfaults₁
  have hresults : (List.range 2).map results =
      [.error (.disagreement .duplicateOwners 1 1 0), .error (.unresolved 1 none)] :=
    calc (List.range 2).map results
        = [results 0, results 1] := rfl
      _ = _ := by rw [he₀, he₁, hfaults₀, hfaults₁]
  exact ⟨hwords, hroom, hresults ▸ hyields⟩

/-- Words are not enough: a rank that serves too many numbers to count them stops, though
    nothing is wrong with its arguments. -/
theorem not_operation_failsTogether_of_words :
    ¬ ∀ (n : Nat) (op : Operation), op.Words n → ∃ results : Nat → Checked op.Result,
      (World.start ((List.range n).map fun r =>
        (op.run (κ := UInt8) (Seat.of r n)).toProgram)).Yields ((List.range n).map results) ∧
      FailsTogether n (op.stages n) results := by
  intro h
  have hnumbers : ∀ r < 1, ∀ g ∈ [2 ^ 62], g < 2 ^ 64 - 2 := by decide
  obtain ⟨results, hyields, hfails⟩ := h 1 (.own (fun _ => [2 ^ 62]) none fun _ => .smallest)
    ⟨hnumbers, by simp⟩
  have hkeyed : Keyed 1 1 (fun _ => [2 ^ 62]) fun _ => numberKeys [2 ^ 62] :=
    keyed_numberKeys hnumbers
  have hsound : Sound 1 (fun _ => (numberKeys [2 ^ 62]).map (homeOf 1 fun _ => [2 ^ 62]))
      (sharesOf 1 fun _ => [2 ^ 62]).length := ⟨by decide, by decide⟩
  have hstop := ownersOfNumbers_of_meetAtHome (meetAtHome_of_meet (κ := UInt8) .smallest hkeyed
    (plan_together_noRoom hsound (by decide) (by decide) (by decide) (by decide)).orFail)
  have hbreach : results 0 = .error (.breach .noRoom) :=
    (List.cons.inj (hyields.run_eq.symm.trans hstop.yields.run_eq)).1
  -- this is nothing that a stage finds wrong
  obtain ⟨s, hs, hfault | ⟨first, _, herror⟩⟩ := hfails.of_error (by decide) hbreach
  · rcases List.mem_pair.1 hs with rfl | rfl
    · cases hfault
    · obtain ⟨vertex, owner, herror⟩ := error_of_mem_settleStage hfault
      cases herror
  · cases herror

end SharedMesh
