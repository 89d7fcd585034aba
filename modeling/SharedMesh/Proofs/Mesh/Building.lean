import SharedMesh.Proofs.Mesh.Covers

/-!
# Building in parts

The ranks build the parts of a mesh together, each from its slice of the elements, with
vertices in an order of its own. Every entity of a part has the number, and the vertices in
the order, that it has in the mesh that a single rank builds from all elements; and of the
copies of an entity one owns it (`build_covers`).

This holds for meshes whose entities are told apart by their vertices (`Regular`) and that
fit in memory (`BuildRoom`). Without room for the numbers of vertices, the ranks stop
(`not_build_covers_of_dealt`).
-/

namespace SharedMesh

variable {κ α β : Type}

/-! ## Programs without a network -/

theorem Program.alone_bind (p : Program κ α) (f : α → Program κ β) :
    (p.bind f).alone = (f p.alone).alone := by
  induction p with
  | done => rfl
  | send _ _ _ _ ih => exact ih
  | recv _ _ _ _ ih => exact ih none

/-- One task after the other, without a network. -/
theorem Proc.alone_bind {t : Proc κ α} {a : α} (h : t.toProgram.alone = .ok a) (f : α → Proc κ β) :
    (t >>= f).toProgram.alone = (f a).toProgram.alone := by
  refine (Program.alone_bind t.toProgram _).trans ?_
  rw [h]
  rfl

/-- A local step that succeeds, and then a task. -/
theorem Proc.alone_ofChecked {x : Checked α} {a : α} (h : x = .ok a) (f : α → Proc κ β) :
    (Proc.ofChecked x >>= f).toProgram.alone = (f a).toProgram.alone :=
  Proc.alone_bind (t := Proc.ofChecked x) h f

/-! ## Meshes in parts -/

/-- Elements of `degree` vertices below `vertexCount`, which have regular parts. -/
structure MeshElements (shape : Shape) (dim degree vertexCount : Nat) (elements : List Nat) :
    Prop where
  dim_pos : 0 < dim
  dim_le : dim ≤ 3
  corners : shape.corners dim = .ok degree
  whole : elements.length % degree = 0
  vertex_lt : ∀ v ∈ elements, v < vertexCount
  regular : ∀ sub, 0 < sub → sub < dim → Regular shape dim sub elements

/-- Every rank has its slice of the elements, by vertices of its own. -/
structure Dealt (n degree vertexCount : Nat) (elements : List Nat)
    (locals numbers : Nat → List Nat) : Prop where
  slice : ∀ r < n, ∃ s, (⟨elements.length / degree, n⟩ : Shares).slice r = .ok s ∧
    Renumbered (locals r) (numbers r) ((elements.drop (s.start * degree)).take (s.size * degree))
  number_lt : ∀ r < n, ∀ g ∈ numbers r, g < vertexCount

/-- What is built takes less than half of all addresses: two words for each vertex, three for
    each number of a vertex that one of several ranks serves, six for each corner of an
    element, and four for each vertex of a rank. -/
structure BuildRoom (n vertexCount : Nat) (elements : List Nat) (numbers : Nat → List Nat) :
    Prop where
  rank_room : n ≤ 2 ^ 32
  vertex_room : vertexCount * 16 < 2 ^ 63
  share_room : 1 < n → ∀ r < n, (sharesOf n numbers).length r * 24 < 2 ^ 63
  element_room : elements.length * 48 < 2 ^ 63
  number_room : itemTotal n numbers * 32 < 2 ^ 63

section

variable {shape : Shape} {dim degree vertexCount n : Nat} {elements : List Nat}
  {locals numbers : Nat → List Nat}

/-- Whole elements of known vertices pass the first check. -/
theorem Part.checkElements_eq_ok (hdim : 0 < dim) (hcorners : shape.corners dim = .ok degree)
    {vs gs : List Nat} (hwhole : vs.length % degree = 0) (hnamed : ∀ v ∈ vs, v < gs.length) :
    checkElements shape dim vs gs = .ok degree := by
  have hnone : (vs.find? fun v => gs.length ≤ v) = none := List.find?_eq_none.2 fun v hv => by
    simpa using hnamed v hv
  rw [checkElements, if_neg (Nat.ne_of_gt hdim), hcorners]
  refine (if_neg (not_not_intro hwhole)).trans ?_
  rw [hnone]
  rfl

namespace MeshElements

theorem length_eq (h : MeshElements shape dim degree vertexCount elements) :
    elements.length = elements.length / degree * degree := by
  rw [Nat.div_mul_cancel (Nat.dvd_of_mod_eq_zero h.whole)]

theorem between (h : MeshElements shape dim degree vertexCount elements) {sub : Nat}
    (hsub : 0 < sub) (hlt : sub < dim) :
    ∃ subDegree template, Between shape dim sub degree subDegree template :=
  exists_between_of_corners h.corners hsub hlt h.dim_le

/-- The elements pass the first check, also by the vertices of a rank. -/
theorem checkElements_eq_ok (h : MeshElements shape dim degree vertexCount elements)
    {vs gs part : List Nat} (hpart : part.length % degree = 0) (hrank : Renumbered vs gs part) :
    Part.checkElements shape dim vs gs = .ok degree :=
  Part.checkElements_eq_ok h.dim_pos h.corners (by rw [hrank.length_eq, hpart]) hrank.named

end MeshElements

theorem Dealt.renumbered (h : Dealt n degree vertexCount elements locals numbers)
    (hroom : elements.length * 48 < 2 ^ 63) {r : Nat} (hr : r < n) :
    Renumbered (locals r) (numbers r) (dealtElements n degree elements r) := by
  obtain ⟨s, hs, hrank⟩ := h.slice r hr
  have htotal : elements.length / degree < 2 ^ 64 := by
    have := Nat.div_le_self elements.length degree
    omega
  rw [Shares.slice_eq_ok hr htotal, Except.ok.injEq] at hs
  subst hs
  rw [dealtElements, dealtRecords]
  simpa [Slice.size] using hrank

/-! ## The layers between -/

/-- How many vertices an entity of a dimension has. -/
def degreeOf (shape : Shape) (dim : Nat) : Nat :=
  match shape.corners dim with
  | .ok degree => degree
  | .error _ => 0

/-- The derived entities of a rank. -/
def betweenLayer (n : Nat) (shape : Shape) (dim : Nat) (locals numbers : Nat → List Nat)
    (sub r : Nat) : Layer :=
  entityLayer n (degreeOf shape sub) (fun s => (skeletonRecords shape dim sub (locals s)).flatten)
    numbers r

theorem Between.betweenLayer_eq {sub subDegree : Nat} {template : List Nat}
    (hb : Between shape dim sub degree subDegree template) (n : Nat)
    (locals numbers : Nat → List Nat) :
    betweenLayer n shape dim locals numbers sub = entityLayer n subDegree
      (fun r => (skeletonRecords shape dim sub (locals r)).flatten) numbers := by
  have hdegree : degreeOf shape sub = subDegree := by rw [degreeOf, hb.corners_sub]
  funext r
  rw [betweenLayer, hdegree]

section

variable {sub subDegree count : Nat} {template : List Nat}
  (hb : Between shape dim sub degree subDegree template) (hn : 0 < n)
  (hwhole : elements.length = count * degree) (hregular : Regular shape dim sub elements)
  (hdealt : ∀ r < n, Renumbered (locals r) (numbers r) (dealtElements n degree elements r))

include hb hn hwhole hregular hdealt

theorem acceptable_dealt {r : Nat} (hr : r < n) :
    Acceptable subDegree (skeletonRecords shape dim sub (locals r)).flatten (numbers r) :=
  Renumbered.acceptable hb (length_dealtElements hb.degree_pos hwhole hr)
    (hregular.dealt hb hn hwhole hr) (hdealt r hr)

theorem recordKeys_dealt {r : Nat} (hr : r < n) :
    recordKeys subDegree (skeletonRecords shape dim sub (locals r)).flatten (numbers r) =
      entityKeys shape dim sub subDegree (dealtElements n degree elements r) :=
  Renumbered.recordKeys_eq hb (length_dealtElements hb.degree_pos hwhole hr)
    (hregular.dealt hb hn hwhole hr) (hdealt r hr)

theorem skeleton_dealt {r : Nat} (hr : r < n) : skeleton (locals r) shape dim sub =
    .ok (skeletonRecords shape dim sub (locals r)).flatten :=
  Renumbered.skeleton_eq_ok hb (length_dealtElements hb.degree_pos hwhole hr)
    (hregular.dealt hb hn hwhole hr) (hdealt r hr)

/-- The keys of all ranks are those of the whole mesh. -/
theorem distinctKeys_dealt : distinctKeys n subDegree
    (fun r => (skeletonRecords shape dim sub (locals r)).flatten) numbers =
      entityKeys shape dim sub subDegree elements := by
  rw [distinctKeys, ← entityKeys_dealt hb hn hwhole]
  refine congrArg List.eraseDups (List.flatMap_congr fun r hr => ?_)
  exact recordKeys_dealt hb hn hwhole hregular hdealt (List.mem_range.1 hr)

/-- There are no more keys than parts of elements. -/
theorem itemTotal_recordKeys : itemTotal n (fun r => recordKeys subDegree
    (skeletonRecords shape dim sub (locals r)).flatten (numbers r)) ≤
      count * (rows subDegree template).length := by
  have hparts := hb.length_partsOf elements
  rw [hwhole, Nat.mul_div_cancel _ hb.degree_pos] at hparts
  rw [← hparts, ← flatMap_partsOf_dealtElements hb hn hwhole, List.length_flatMap, itemTotal]
  refine List.sum_le_sum fun r hr => ?_
  rw [recordKeys_dealt hb hn hwhole hregular hdealt (List.mem_range.1 hr), entityKeys]
  exact (length_eraseDups_le _).trans_eq (List.length_map _)

/-- The keys of all ranks take no more than six words for each corner, and neither do the items
    that have them. -/
theorem room_itemTotal (hroom : elements.length * 48 < 2 ^ 63) {k : Nat}
    (hk : k ≤ itemTotal n (fun r => recordKeys subDegree
      (skeletonRecords shape dim sub (locals r)).flatten (numbers r))) :
    k * subDegree * 8 < 2 ^ 63 ∧ k * 32 < 2 ^ 63 := by
  have hle := hb.room_le (hk.trans (itemTotal_recordKeys hb hn hwhole hregular hdealt))
  rw [← hwhole] at hle
  exact ⟨hle.1.trans_lt hroom, hle.2.trans_lt hroom⟩

variable [Alphabet κ] [LawfulAlphabet κ]

/-- The ranks make their layers of derived entities together. -/
theorem derivedLayer_together (hroom : BuildRoom n vertexCount elements numbers)
    (hnumber : ∀ r < n, ∀ g ∈ numbers r, g < vertexCount) :
    Together n (List.range n) (fun r => (Part.derivedLayer (Seat.of r n) shape dim (locals r)
        (numbers r) sub : Proc κ Layer).toProgram)
      (fun r => .ok (betweenLayer n shape dim locals numbers sub r)) := by
  have hacceptable : ∀ r < n, Acceptable subDegree
      (skeletonRecords shape dim sub (locals r)).flatten (numbers r) :=
    fun r hr => acceptable_dealt hb hn hwhole hregular hdealt hr
  refine Together.ofCheckedThen (fun r hr =>
    skeleton_dealt hb hn hwhole hregular hdealt (List.mem_range.1 hr)) ?_
  refine Together.ofCheckedThen (fun _ _ => hb.corners_sub) ?_
  rw [hb.betweenLayer_eq]
  have hitems := room_itemTotal hb hn hwhole hregular hdealt hroom.element_room (Nat.le_refl _)
  refine Together.ofSize hn (fun hmany => ?_) fun hone => ?_
  · -- the keys meet at their homes, and then those that own themselves are numbered
    have hmeeting := meetingRoom_of_shares hroom.rank_room (hroom.share_room hmany) hitems.1
      hitems.2
    have hkeyed := keyed_recordKeys (fun r hr g hg => by
      have := hnumber r hr g hg
      have := hroom.vertex_room
      omega) hacceptable hb.sub_pos
    refine sharedEntities_together hacceptable hkeyed hmeeting (numberingRoom_of_sum ?_)
    have howners : itemTotal n (firstOwners n fun r => recordKeys subDegree
        (skeletonRecords shape dim sub (locals r)).flatten (numbers r)) =
          itemTotal n fun r => recordKeys subDegree
            (skeletonRecords shape dim sub (locals r)).flatten (numbers r) := by
      simp only [itemTotal, firstOwners, List.length_map]
    rw [howners]
    exact hitems.2
  · subst hone
    refine congrArg Program.done (soleEntities_eq _ rfl (hacceptable 0 hn) ?_ ?_)
    · rw [recordKeys_dealt hb hn hwhole hregular hdealt hn]
      exact nodup_eraseDups _
    · have hroom := hitems.2
      rw [itemTotal, List.range_one, List.map_singleton, List.sum_singleton] at hroom
      omega

end

/-- A single rank without a network makes its layers of derived entities. -/
theorem derivedLayer_alone {sub subDegree count : Nat} {template : List Nat}
    (hb : Between shape dim sub degree subDegree template)
    (hwhole : elements.length = count * degree) (hregular : Regular shape dim sub elements)
    (hvertex : ∀ v ∈ elements, v < vertexCount) (hroom : elements.length * 48 < 2 ^ 63)
    [Alphabet κ] : (Part.derivedLayer Seat.serial shape dim elements (List.range vertexCount) sub :
      Proc κ Layer).toProgram.alone = .ok (betweenLayer 1 shape dim (fun _ => elements)
        (fun _ => List.range vertexCount) sub 0) := by
  have hrank := renumbered_range hvertex
  have hkeys := hrank.recordKeys_eq hb hwhole hregular
  have hlength : (recordKeys subDegree (skeletonRecords shape dim sub elements).flatten
      (List.range vertexCount)).length ≤ count * (rows subDegree template).length := by
    have hparts := hb.length_partsOf elements
    rw [hwhole, Nat.mul_div_cancel _ hb.degree_pos] at hparts
    rw [hkeys, entityKeys, ← hparts]
    exact (length_eraseDups_le _).trans_eq (List.length_map _)
  refine (Proc.alone_ofChecked (hrank.skeleton_eq_ok hb hwhole hregular) _).trans ?_
  refine (Proc.alone_ofChecked hb.corners_sub _).trans ?_
  rw [hb.betweenLayer_eq]
  refine soleEntities_eq _ rfl (hrank.acceptable hb hwhole hregular) ?_ ?_
  · rw [hkeys]
    exact nodup_eraseDups _
  · have hle := (hb.room_le hlength).2
    rw [← hwhole] at hle
    omega

theorem derivedLayers_together [Alphabet κ] {f : Nat → Nat → Layer} {subs : List Nat}
    (h : ∀ sub ∈ subs, Together n (List.range n)
      (fun r => (Part.derivedLayer (Seat.of r n) shape dim (locals r) (numbers r) sub :
        Proc κ Layer).toProgram) fun r => .ok (f sub r)) :
    Together n (List.range n) (fun r => (Part.derivedLayers (Seat.of r n) shape dim (locals r)
        (numbers r) subs : Proc κ (List Layer)).toProgram)
      fun r => .ok (subs.map (f · r)) := by
  induction subs with
  | nil => exact .done _
  | cons sub subs ih =>
    refine Together.andThen (h sub List.mem_cons_self) ?_
    exact (ih fun sub hsub => h sub (List.mem_cons_of_mem _ hsub)).mapOk

theorem derivedLayers_alone [Alphabet κ] {seat : Seat} {vs gs : List Nat} {f : Nat → Layer}
    {subs : List Nat} (h : ∀ sub ∈ subs, (Part.derivedLayer seat shape dim vs gs sub :
      Proc κ Layer).toProgram.alone = .ok (f sub)) :
    (Part.derivedLayers seat shape dim vs gs subs : Proc κ (List Layer)).toProgram.alone =
      .ok (subs.map f) := by
  induction subs with
  | nil => rfl
  | cons sub subs ih =>
    refine (Proc.alone_bind (h sub List.mem_cons_self) _).trans ?_
    exact Proc.alone_bind (ih fun sub hsub => h sub (List.mem_cons_of_mem _ hsub)) _

/-! ## The parts -/

/-- What a rank holds of the mesh. -/
def builtPart (seat : Seat) (shape : Shape) (dim degree : Nat) (locals numbers : Nat → List Nat) :
    Part where
  seat := seat
  shape := shape
  dim := dim
  layers := vertexLayer seat.size numbers seat.rank ::
    (List.range' 1 (dim - 1)).map (betweenLayer seat.size shape dim locals numbers · seat.rank) ++
      [elementLayer degree locals seat.rank]

theorem layer_builtPart_between (seat : Seat) (degree : Nat) {d : Nat} (hd : 0 < d)
    (hlt : d < dim) : (builtPart seat shape dim degree locals numbers).layer d =
      .ok (betweenLayer seat.size shape dim locals numbers d seat.rank) := by
  obtain ⟨k, rfl⟩ := Nat.exists_eq_succ_of_ne_zero (Nat.ne_of_gt hd)
  have hk : k < dim - 1 := by omega
  simp [Part.layer, builtPart, List.getElem?_append_left, hk, Nat.add_comm]

theorem layer_builtPart_top (seat : Seat) (degree : Nat) (hd : 0 < dim) :
    (builtPart seat shape dim degree locals numbers).layer dim =
      .ok (elementLayer degree locals seat.rank) := by
  obtain ⟨k, rfl⟩ := Nat.exists_eq_succ_of_ne_zero (Nat.ne_of_gt hd)
  simp [Part.layer, builtPart]

theorem mem_range'_between {sub : Nat} (h : sub ∈ List.range' 1 (dim - 1)) :
    0 < sub ∧ sub < dim := by
  rw [List.mem_range'_1] at h
  omega

/-- The first layer, of vertices. -/
def firstLayer [Alphabet κ] (seat : Seat) (gs : List Nat) : Proc κ Layer :=
  if 1 < seat.size then Part.sharedVertices seat gs else Proc.ofChecked (Part.soleVertices seat gs)

/-- The last layer, of elements. -/
def lastLayer [Alphabet κ] (seat : Seat) (degree : Nat) (vs : List Nat) : Proc κ Layer :=
  if 1 < seat.size then Part.sharedElements seat degree vs
  else Proc.ofChecked (Part.soleElements seat degree vs)

/-- A part is built layer by layer. -/
theorem build_eq [Alphabet κ] (seat : Seat) (vs gs : List Nat) :
    (Part.build seat shape dim vs gs : Proc κ Part) = do
      let degree ← Proc.ofChecked (Part.checkElements shape dim vs gs)
      let bottom ← firstLayer seat gs
      let between ← Part.derivedLayers seat shape dim vs gs (List.range' 1 (dim - 1))
      let top ← lastLayer seat degree vs
      return ⟨seat, shape, dim, bottom :: between ++ [top]⟩ := by
  by_cases hmany : 1 < seat.size
  · simp only [Part.build, firstLayer, lastLayer, if_pos hmany]
  · simp only [Part.build, firstLayer, lastLayer, if_neg hmany]

/-- The single rank builds the whole mesh. -/
theorem serial_eq_ok (hmesh : MeshElements shape dim degree vertexCount elements)
    (hvertices : vertexCount * 16 < 2 ^ 63) (helements : elements.length * 48 < 2 ^ 63) :
    Part.serial shape dim elements vertexCount = .ok (builtPart Seat.serial shape dim degree
      (fun _ => elements) fun _ => List.range vertexCount) := by
  have hrank := renumbered_range hmesh.vertex_lt
  have hfirst : (firstLayer Seat.serial (List.range vertexCount) :
      Proc UInt8 Layer).toProgram.alone =
        .ok (vertexLayer 1 (fun _ => List.range vertexCount) 0) :=
    soleVertices_eq Seat.serial rfl List.nodup_range (by rwa [List.length_range])
  have hbetween := derivedLayers_alone (κ := UInt8) fun sub hsub => by
    obtain ⟨hpos, hlt⟩ := mem_range'_between hsub
    obtain ⟨subDegree, template, hb⟩ := hmesh.between hpos hlt
    exact derivedLayer_alone (κ := UInt8) hb hmesh.length_eq (hmesh.regular sub hpos hlt)
      hmesh.vertex_lt helements
  have hcount := Nat.div_le_self elements.length degree
  have hlast : (lastLayer Seat.serial degree elements : Proc UInt8 Layer).toProgram.alone =
      .ok (elementLayer degree (fun _ => elements) 0) :=
    soleElements_eq Seat.serial rfl (by omega)
  refine (bind_of_ok (checkRoom_eq_ok (by omega)) _).trans ?_
  rw [build_eq]
  refine (Proc.alone_ofChecked (hmesh.checkElements_eq_ok hmesh.whole hrank) _).trans ?_
  refine (Proc.alone_bind hfirst _).trans ?_
  refine (Proc.alone_bind hbetween _).trans ?_
  exact Proc.alone_bind hlast _

section

variable [Alphabet κ] [LawfulAlphabet κ]

theorem firstLayer_together (hn : 0 < n) (hroom : BuildRoom n vertexCount elements numbers)
    (hnodup : ∀ r < n, (numbers r).Nodup) (hnumber : ∀ r < n, ∀ g ∈ numbers r, g < vertexCount) :
    Together n (List.range n)
      (fun r => (firstLayer (Seat.of r n) (numbers r) : Proc κ Layer).toProgram)
      (fun r => .ok (vertexLayer n numbers r)) := by
  refine Together.ofSize hn (fun hmany => ?_) fun hone => ?_
  · have hitems : itemTotal n (fun r => numberKeys (numbers r)) * 32 < 2 ^ 63 := by
      simpa [itemTotal, numberKeys] using hroom.number_room
    refine sharedVertices_together (fun r hr g hg => ?_)
      (meetingRoom_of_shares hroom.rank_room (hroom.share_room hmany) (by omega) hitems)
    have := hnumber r hr g hg
    have := hroom.vertex_room
    omega
  · subst hone
    refine congrArg Program.done (soleVertices_eq _ rfl (hnodup 0 hn) ?_)
    have := length_le_itemTotal numbers hn
    have := hroom.number_room
    omega

theorem lastLayer_together (hn : 0 < n)
    (hroom : itemTotal n (elementOwners degree locals) * 32 < 2 ^ 63) :
    Together n (List.range n)
      (fun r => (lastLayer (Seat.of r n) degree (locals r) : Proc κ Layer).toProgram)
      (fun r => .ok (elementLayer degree locals r)) := by
  refine Together.ofSize hn (fun _ => sharedElements_together (numberingRoom_of_sum hroom))
    fun hone => ?_
  subst hone
  refine congrArg Program.done (soleElements_eq _ rfl ?_)
  have hlength := length_le_itemTotal (elementOwners degree locals) hn
  rw [elementOwners, Place.length_own] at hlength
  omega

/-- The ranks build their parts together. -/
theorem build_together (hn : 0 < n) (hmesh : MeshElements shape dim degree vertexCount elements)
    (hdealt : Dealt n degree vertexCount elements locals numbers)
    (hroom : BuildRoom n vertexCount elements numbers) :
    Together n (List.range n) (fun r => (Part.build (Seat.of r n) shape dim (locals r) (numbers r) :
        Proc κ Part).toProgram)
      (fun r => .ok (builtPart (Seat.of r n) shape dim degree locals numbers)) := by
  have hranks : ∀ r < n, Renumbered (locals r) (numbers r) (dealtElements n degree elements r) :=
    fun r hr => hdealt.renumbered hroom.element_room hr
  have hdegree := degree_pos_of_corners hmesh.corners
  have hcount : itemTotal n (elementOwners degree locals) = elements.length / degree := by
    rw [← length_allOwned_elementOwners hn hdegree hmesh.length_eq hranks, allOwned,
      List.length_flatMap, itemTotal]
    simp only [ownedPlaces_elementOwners]
  simp only [build_eq]
  refine Together.ofCheckedThen (a := fun _ => degree) (fun r hr => ?_) ?_
  · have hr : r < n := List.mem_range.1 hr
    refine hmesh.checkElements_eq_ok ?_ (hranks r hr)
    rw [length_dealtElements hdegree hmesh.length_eq hr, Nat.mul_mod_left]
  refine Together.andThen (firstLayer_together hn hroom (fun r hr => (hranks r hr).nodup)
    hdealt.number_lt) ?_
  refine Together.andThen (derivedLayers_together (f := betweenLayer n shape dim locals numbers)
    fun sub hsub => ?_) ?_
  · obtain ⟨hpos, hlt⟩ := mem_range'_between hsub
    obtain ⟨subDegree, template, hb⟩ := hmesh.between hpos hlt
    exact derivedLayer_together hb hn hmesh.length_eq (hmesh.regular sub hpos hlt) hranks hroom
      hdealt.number_lt
  refine Together.andThen (lastLayer_together hn ?_) (Together.done _)
  rw [hcount]
  have := Nat.div_le_self elements.length degree
  have := hroom.element_room
  omega

end

/-! ## The whole mesh -/

/-- Between vertices and elements, the layers of the ranks are parts of that of the whole mesh,
    which lists every entity once, in canonical form. -/
theorem covers_between {sub subDegree : Nat} {template : List Nat}
    (hb : Between shape dim sub degree subDegree template) (hn : 0 < n)
    (hmesh : MeshElements shape dim degree vertexCount elements)
    (hregular : Regular shape dim sub elements)
    (hranks : ∀ r < n, Renumbered (locals r) (numbers r) (dealtElements n degree elements r)) :
    let whole := betweenLayer 1 shape dim (fun _ => elements) (fun _ => List.range vertexCount)
      sub 0
    Covers n subDegree numbers whole (betweenLayer n shape dim locals numbers sub) ∧
      (rows subDegree whole.vertices).Nodup ∧
        ∀ record ∈ rows subDegree whole.vertices, IsCanonical record := by
  have hrank := renumbered_range hmesh.vertex_lt
  have hwhole := hrank.acceptable hb hmesh.length_eq hregular
  have hkeys := hrank.recordKeys_eq hb hmesh.length_eq hregular
  have hrows := rows_canonicalRecords_range hwhole
  simp only [hb.betweenLayer_eq]
  refine ⟨covers_entityLayer (fun r hr => acceptable_dealt hb hn hmesh.length_eq hregular hranks hr)
    hwhole ?_, ?_, fun record hrecord => ?_⟩
  · rw [hkeys, distinctKeys_dealt hb hn hmesh.length_eq hregular hranks]
  · simp only [entityLayer, hrows, hkeys]
    exact nodup_eraseDups _
  · simp only [entityLayer, hrows] at hrecord
    obtain ⟨part, hpart, rfl⟩ := List.mem_map.1 hrecord
    exact isCanonical_canonicalForm hb.sub_pos hb.sub_le (hwhole.length_globalRecords part hpart)
      (hwhole.nodup part hpart)

/-- Ranks that build from their slices of the elements build parts of the mesh that a single
    rank builds from all elements: in every dimension above that of vertices, an entity has the
    number and the vertices of the same entity there, and one of its copies owns it. -/
theorem build_covers [Alphabet κ] [LawfulAlphabet κ] (hn : 0 < n)
    (hmesh : MeshElements shape dim degree vertexCount elements)
    (hdealt : Dealt n degree vertexCount elements locals numbers)
    (hroom : BuildRoom n vertexCount elements numbers) :
    ∃ (whole : Part) (parts : Nat → Part),
      Part.serial shape dim elements vertexCount = .ok whole ∧
      (World.start ((List.range n).map fun r => (Part.build (κ := κ) (Seat.of r n) shape dim
        (locals r) (numbers r)).toProgram)).Yields ((List.range n).map fun r => .ok (parts r)) ∧
      (∀ r < n, (parts r).seat = Seat.of r n) ∧
      (∀ d, 0 < d → d < dim → ∃ (k : Nat) (w : Layer) (layers : Nat → Layer),
        shape.corners d = .ok k ∧ whole.layer d = .ok w ∧
        (∀ r < n, (parts r).layer d = .ok (layers r)) ∧ Covers n k numbers w layers ∧
        (rows k w.vertices).Nodup ∧ ∀ record ∈ rows k w.vertices, IsCanonical record) ∧
      ∃ (w : Layer) (layers : Nat → Layer), whole.layer dim = .ok w ∧
        (∀ r < n, (parts r).layer dim = .ok (layers r)) ∧ Covers n degree numbers w layers ∧
        w.vertices = elements ∧ ∀ r < n, (layers r).vertices = locals r ∧
          ∃ s, (⟨elements.length / degree, n⟩ : Shares).slice r = .ok s ∧
            (layers r).globals = List.range' s.start s.size := by
  have hranks : ∀ r < n, Renumbered (locals r) (numbers r) (dealtElements n degree elements r) :=
    fun r hr => hdealt.renumbered hroom.element_room hr
  have hdegree := degree_pos_of_corners hmesh.corners
  refine ⟨_, _, serial_eq_ok hmesh hroom.vertex_room hroom.element_room,
    (build_together hn hmesh hdealt hroom).yields, fun _ _ => rfl, fun d hd hlt => ?_, ?_⟩
  · obtain ⟨k, template, hb⟩ := hmesh.between hd hlt
    exact ⟨k, _, _, hb.corners_sub, layer_builtPart_between _ _ hd hlt,
      fun r _ => layer_builtPart_between _ _ hd hlt,
      covers_between hb hn hmesh (hmesh.regular d hd hlt) hranks⟩
  · refine ⟨_, _, layer_builtPart_top _ _ hmesh.dim_pos,
      fun r _ => layer_builtPart_top _ _ hmesh.dim_pos,
      covers_elementLayer hn hdegree hmesh.length_eq hranks, rfl, fun r hr => ⟨rfl, ?_⟩⟩
    have htotal : elements.length / degree < 2 ^ 64 := by
      have := Nat.div_le_self elements.length degree
      have := hroom.element_room
      omega
    refine ⟨_, Shares.slice_eq_ok (s := ⟨elements.length / degree, n⟩) hr htotal,
      (globals_elementLayer hdegree hmesh.length_eq hranks hr).trans ?_⟩
    simp [Slice.size]

end

/-- Two triangles with a common edge, one for each of two ranks, by vertices of their own. -/
def triangleVertices (r : Nat) : List Nat × List Nat :=
  if r = 0 then ([1, 2, 0], [2, 0, 1]) else ([0, 1, 2], [1, 3, 2])

theorem build_covers_twoTriangles :
    ∃ (whole : Part) (parts : Nat → Part) (w : Layer) (layers : Nat → Layer),
      Part.serial .simplex 2 [0, 1, 2, 1, 3, 2] 4 = .ok whole ∧
      (World.start ((List.range 2).map fun r => (Part.build (κ := UInt8) (Seat.of r 2) .simplex 2
        (triangleVertices r).1 (triangleVertices r).2).toProgram)).Yields
          ((List.range 2).map fun r => .ok (parts r)) ∧
      whole.layer 1 = .ok w ∧ (∀ r < 2, (parts r).layer 1 = .ok (layers r)) ∧
      Covers 2 2 (fun r => (triangleVertices r).2) w layers := by
  have hmesh : MeshElements .simplex 2 3 4 [0, 1, 2, 1, 3, 2] := by
    refine ⟨by decide, by decide, rfl, by decide, by decide, fun sub hsub hlt => ?_⟩
    obtain rfl : sub = 1 := by omega
    exact ⟨by decide, by decide⟩
  have hdealt : Dealt 2 3 4 [0, 1, 2, 1, 3, 2] (fun r => (triangleVertices r).1)
      fun r => (triangleVertices r).2 := by
    refine ⟨fun r hr => ?_, by decide⟩
    match r, hr with
    | 0, _ => exact ⟨_, rfl, by decide, by decide, by decide⟩
    | 1, _ => exact ⟨_, rfl, by decide, by decide, by decide⟩
  have hroom : BuildRoom 2 4 [0, 1, 2, 1, 3, 2] fun r => (triangleVertices r).2 :=
    ⟨by decide, by decide, by decide, by decide, by decide⟩
  obtain ⟨whole, parts, hserial, hbuild, _, hbetween, _⟩ :=
    build_covers (κ := UInt8) (by decide) hmesh hdealt hroom
  obtain ⟨k, w, layers, hk, hw, hlayers, hcovers, _⟩ := hbetween 1 (by decide) (by decide)
  cases hk
  exact ⟨whole, parts, w, layers, hserial, hbuild, hw, hlayers, hcovers⟩

/-- It is not enough that the elements are regular and dealt out: ranks that serve too many
    numbers of vertices to count them stop. -/
theorem not_build_covers_of_dealt :
    ¬ ∀ (shape : Shape) (dim degree vertexCount n : Nat) (elements : List Nat)
      (locals numbers : Nat → List Nat), 0 < n →
      MeshElements shape dim degree vertexCount elements →
      Dealt n degree vertexCount elements locals numbers →
      ∃ parts : Nat → Part,
        (World.start ((List.range n).map fun r => (Part.build (κ := UInt8) (Seat.of r n) shape dim
          (locals r) (numbers r)).toProgram)).Yields
            ((List.range n).map fun r => .ok (parts r)) := by
  intro h
  let numbers : Nat → List Nat := fun r => if r = 0 then [0, 2 ^ 61] else []
  let locals : Nat → List Nat := fun r => if r = 0 then [0, 1] else []
  have hmesh : MeshElements .simplex 1 2 (2 ^ 61 + 1) [0, 2 ^ 61] :=
    ⟨by decide, by decide, rfl, by decide, by decide, fun sub hsub hlt => by omega⟩
  have hdealt : Dealt 2 2 (2 ^ 61 + 1) [0, 2 ^ 61] locals numbers := by
    refine ⟨fun r hr => ?_, by decide⟩
    match r, hr with
    | 0, _ => exact ⟨_, rfl, by decide, by decide, by decide⟩
    | 1, _ => exact ⟨_, rfl, by decide, by decide, by decide⟩
  obtain ⟨parts, hparts⟩ := h .simplex 1 2 (2 ^ 61 + 1) 2 [0, 2 ^ 61] locals numbers (by decide)
    hmesh hdealt
  -- each of the ranks serves `2 ^ 60` numbers or more
  have hsound : Route.Sound 2 (fun r => (numberKeys (numbers r)).map (homeOf 2 numbers))
      (sharesOf 2 numbers).length := ⟨by decide, by decide⟩
  have hplan := Route.plan_together_noRoom (κ := UInt8) hsound (by decide) (by decide) (by decide)
    (by decide)
  have howners := ownersOfNumbers_of_meetAtHome
    (meetAtHome_of_meet .smallest (keyed_numberKeys (by decide)) hplan.orFail)
  have hfail : Together 2 (List.range 2) (fun r => (Part.build (κ := UInt8) (Seat.of r 2) .simplex 1
      (locals r) (numbers r)).toProgram) fun _ => .error (.breach .noRoom) := by
    simp only [build_eq]
    refine Together.ofCheckedThen (a := fun _ => 2) (by decide) ?_
    exact howners.orFail.orFail
  have hfail := hfail.yields.run_eq
  rw [hparts.run_eq] at hfail
  simp [List.range_succ] at hfail

end SharedMesh
