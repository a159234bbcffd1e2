import CodeAtlas.Text.Ranges

/-!
# Lower case

The lower-case mapping of single characters (Unicode version 14), as arithmetic progressions of
upper-case letters that all move by the same distance. Two letters need more than that table: the
capital I with a dot above becomes two characters, and the capital sigma has a form of its own at
the end of a word.
-/

namespace CodeAtlas.Text

def lowercaseRuns : List CaseRun :=
  List.flatMap (fun (stride, shift, runs) =>
      (rangesOf 0 runs).map fun (first, last) => ⟨first, last, stride, shift⟩)
    [(1, 32, [65, 26, 101, 23, 1, 7, 690, 17, 1, 9, 100, 32, 64241, 26, 6501, 32, 21888, 32]),
     (2, 1, [256, 47, 3, 5, 2, 15, 2, 45, 2, 5, 4, 3, 27, 5, 14, 3, 21, 17, 2, 17, 3, 3, 3, 39, 3,
     17, 19, 9, 289, 3, 101, 23, 113, 33, 9, 53, 2, 13, 2, 95, 6353, 149, 11, 95, 3432, 5, 20, 99,
     8, 3, 31058, 45, 19, 27, 135, 13, 3, 61, 10, 3, 2, 9, 9, 3, 3, 19, 11, 15, 4, 3, 12, 3]),
     (1, 1, [391, 1, 3, 1, 5, 1, 6, 1, 14, 1, 4, 1, 2, 1, 8, 1, 3, 1, 8, 1, 2, 1, 114, 1, 5, 1, 308,
     1, 128, 1, 2, 1, 7560, 1, 2780, 1, 17, 1, 2, 1, 124, 1, 31384, 1, 68, 1, 36, 1]),
     (1, 205, [393, 2, 8, 1]), (1, 211, [406, 1, 5, 1]), (1, 218, [422, 1, 2, 1, 4, 1]),
     (1, 217, [433, 2]), (1, 2, [452, 1, 2, 1, 2, 1, 38, 1]), (1, -130, [544, 1, 476, 3]),
     (1, 37, [904, 3]), (1, 64, [908, 1, 67827, 51]), (1, 63, [910, 2]), (1, 8, [975, 1, 4128, 6]),
     (1, -7, [1017, 1, 7154, 1]), (1, 80, [1024, 16]), (1, 48, [1329, 38, 9897, 48]),
     (1, 7264, [4256, 38, 1, 1, 5, 1]), (1, 38864, [5024, 80]), (1, -3008, [7312, 43, 2, 3]),
     (1, -8, [7944, 8, 8, 6, 10, 8, 8, 8, 8, 6, 26, 8, 24, 8, 8, 8, 8, 8, 8, 2, 30, 2, 14, 2]),
     (2, -8, [8025, 7]), (1, -74, [8122, 2]), (1, -9, [8124, 1, 15, 1, 47, 1]), (1, -86, [8136, 4]),
     (1, -100, [8154, 2]), (1, -112, [8170, 2]), (1, -128, [8184, 2]), (1, -126, [8186, 2]),
     (1, 16, [8544, 16]), (1, 26, [9398, 26]), (1, -10815, [11390, 2]),
     (1, -42308, [42922, 1, 3, 1]), (1, 40, [66560, 40, 136, 36]),
     (1, 39, [66928, 11, 1, 15, 1, 7, 1, 2]), (1, 34, [125184, 34])] ++
  List.map (fun (n, shift) => ⟨n, n, 1, shift⟩)
    [(376, -121), (385, 210), (390, 206), (398, 79), (399, 202), (400, 203), (404, 207), (407, 209),
     (413, 213), (415, 214), (439, 219), (502, -97), (503, -56), (570, 10795), (573, -163),
     (574, 10792), (579, -195), (580, 69), (581, 71), (895, 116), (902, 38), (1012, -60),
     (1216, 15), (7838, -7615), (8486, -7517), (8490, -8383), (8491, -8262), (8498, 28),
     (11362, -10743), (11363, -3814), (11364, -10727), (11373, -10780), (11374, -10749),
     (11375, -10783), (11376, -10782), (42877, -35332), (42893, -42280), (42923, -42319),
     (42924, -42315), (42925, -42305), (42928, -42258), (42929, -42282), (42930, -42261),
     (42931, 928), (42948, -48), (42949, -42307), (42950, -35384)]

def casedRanges : List (Nat × Nat) :=
  packedRanges
    [0x325b215114e5caf59194e12ce1829b11ab12c111311611332243883b13a844138b13f12f51411a15f3a63a189,
     0x53111a214148d71351d46243713311716d23f1111111182624e2624ae1cd4a11d7f5c188325b7194a8a621ae1ac8,
     0x1323b5111257b1432f119e28e3c2a5e7ccaa15114e1c23461cf21fc3cae6c1ce9234829145542146141111116,
     0x5adc81885edd6b1d6b3b8b21711f11b121711f11b1ec4c44c1c81a82acd3a63a289951c74fd881a871955b1ced,
     0x1813913f13913f13913f13913f13913925ac1731151413c17118241189171111c14222122118f11ad6ae88188,
     0x3a63a63a3fdc18c4fc92c11a3cec]

def caseIgnorableRanges : List (Nat × Nat) :=
  packedRanges
    [0x1a1181cd1282d1a14b111b1a61b15c112121115d6915139f73fb1121914243887ef22141114118f1114b11b1614f,
     0x133224241792213a22c1184417a11f11d21a73141841116f7a591862715c35b383812141b7a1b1bb3b3e1114941,
     0x4427923c22c25161217a13d21b2741353116f1316a11c17d13e21b27118411217a1162e22c14215417921b1323e,
     0x162211d4283423922216141ce1194c11b521511e6f111113b219a6111919211ca191b7211ba1137119813d22c118,
     0x14f121a618211117117a1223bb361192431ee14a218916b55d15131b211871218823e23e23d31eea319c811be11f,
     0x31d31d31b3116fd1cd4a11d7f6a231614711d131aa618822187a311321178312244821c19581511511684693f18,
     0x49e62bca16fcae31bd61bd155344c17ad15f481c811f11fd31e925e9b496b1d2811d111a1569521211a21851c21d,
     0x11c2222618a22d129224216835e1b39184e11d2a3a22af1523914131182331cf32f119e4a1e21a843c111a141ca1,
     0x15f1114b11b161712d91214a281c132818fd292ab14fce8141211f931951cc112521e13b1125223116b11b14b118,
     0x122246931a221591f6e11fb4691b2b9268b418fd22cd1435845213198e1915a16288d52ad13ca1188932d118b25d,
     0x23b212643de21241161ac12f11321838b5374d1327922d18312c816211231bf1241a196c21c17e18154c36a11a14,
     0x2121722e1aa116176ae211d5e32619118426581a48142242a814112488211948b514231cd11621111da2112181ad,
     0x19318c82f25e199bc4126abe217144889b212188297f1289b41977b53baef191acfb25bb111321981171211361fa,
     0x3e82881c83e1388e88955adf181dd72fc847d15e81e48d51217229172da81f152e11e1186a46f3efb32ac43e7228]

def lowerChar (c : Char) : Char :=
  match lowercaseRuns.find? (·.covers c.toNat) with
  | some run => Char.ofNat (c.toNat + run.shift).toNat
  | none => c

def meetsCased : List Char → Bool
  | [] => false
  | c :: cs =>
    if inRanges casedRanges c.toNat then true
    else if inRanges caseIgnorableRanges c.toNat then meetsCased cs
    else false

/-- Lower case of a text whose characters before it, last first, are `before`. -/
def lowerFrom (before : List Char) : List Char → List Char
  | [] => []
  | c :: cs =>
    let low :=
      if c.toNat < 0x80 then [lowerChar c]
      else if c.toNat == 0x130 then ['i', Char.ofNat 0x307]
      else if c.toNat == 0x3a3 then
        [if meetsCased before && !meetsCased cs then Char.ofNat 0x3c2 else Char.ofNat 0x3c3]
      else [lowerChar c]
    low ++ lowerFrom (c :: before) cs

def lower (s : String) : String :=
  String.ofList (lowerFrom [] s.toList)

end CodeAtlas.Text
