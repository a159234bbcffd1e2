import CodeAtlas.Text.Ranges

/-!
# Letters and numerals

The characters that count as part of a word besides the underscore: the letters of every
script and all numerals, by their Unicode general category (version 14).
-/

namespace CodeAtlas.Text

def alphanumericRanges : List (Nat × Nat) :=
  packedRanges
    [0x5b5d443b18f596124e12ce1829b11ab12c11131161142215289111751e1c479a13f12f13123112715f3a63a71a68,
     0x221842811a41a712a136e7a5a29613851b7392f13119142e5142195b1e11b1b93d3e1128121f721f111cb1241a2d,
     0x712e222181b1191a421f12a135121712e1311928321a71143f212121712e22461812621c43121d128134311712e2,
     0x23f13511a12f131184117181a4221233a132812f131182a1d2d12e1c3332321112341336111b711a43123e135121,
     0x421a191152119211a111381511124f1a1971c2168291a3f72111913832a5612b41a13512812591311929211a421,
     0x2417911f241117241492415924111724159d15b215114e61a111c1d437231344661b2c5b1eb53b4c1181c2c3f148,
     0x4f3f1a18e5114a2571b961a2e1a61a31414b6c1f311d1e2a1e2b1d2a71b319b53a129219dc3621ae282832c1e18b,
     0x624ae1883885132161459325b71926931a3c4c3a781d3e591a318295f1bd11d1a61a5b6d192f4d1b63a45c1b5258,
     0x7c1bae7a11455421b14111111653111a21411cd1d61b56221eb71351d46243713311716d23f1111111182624e2,
     0x15b5411ba1361ae45257193937ad11a8717171717171717192f281778215114e211923463cd29dc3e19ee2e19e,
     0x3851112518821cf2194f1a823f285f2c3c349d25e18b5ba9d1881cf885881f4f1a481f1183e1a482868481a431be,
     0x371b233811125223116a3132f61a418132f591391561b3c5f73d392f1a4e121136381a3c6a1e6c1a61d2f1413128,
     0x586e21882a5db491dc1212111511d11a11551c74e1da25de28c8c6942f1c2decc61a1d1eb61e15b171719626261c,
     0x1a4e53e194c43b286933d3ec229791c5d1c1fb4a1e21f1212b13a11c4b326262631b91b3a63a71a2b28f151ec1c,
     0x22f213215c112618d1915a1638181a2e194ef18b21711f11b121711f11b1c6c185844c44c61a22be5a511844c23e,
     0x76b1d6b6f1991a872f3a53b22e1a6e28563c118484813f2f191a3d13141f5f22c47818e3a4495212b6819184e23f,
     0x1b1b41e681c134b1812141a1f4c191a739485d1d12213e3a6d1c2f2c3c5e2a3b41b2e185819e265a13f4ce1a1c5a,
     0x4c4595f2ce1a181122c683e351a542a6d2be51c12a135121712e222181b1a295f71a11f1411171ac3912a1b2c411,
     0x5e1b12d17581a13c111284f21818e1a1e1111f3812118212181c1ab1ec5c2f9741c2d3b6e1a711d5b4e1a1b12c68,
     0x1c9599c38c291df1ce1eba5b2d1f12fd2b4ee1a711e48121661a1912d4e12171e83e53d1f1294d11948f1992a12b,
     0x1bff83c1121881d18a1519b1d91af1ae82b52d1711a1c428682a3e61a119f61a13f718f928ef9198f7fa928df1f,
     0x189171111c14222122118f11ad28f391dc2c1b98e1a71931d51db4c8c69c1842935d4cb12171429bcf195a2bae18,
     0x1a45c2a3e589141a271a5d7c93f3c886a21813913f13913f13913f13913f13913925ac1731151413c17118241,
     0x111111112112131111114161111411a11211213b1438a1f15d19c41317b1caf1a41718c6819238d11f1214172bce,
     0x19d9b2fca18be68bf1ece91e1ba8a23be7188f9481abbc8288e1a5bcb1d198c29151352911a1114141714211211]

def isAlphanumeric (c : Char) : Bool :=
  inRanges alphanumericRanges c.toNat

def isWordChar (c : Char) : Bool :=
  c == '_' || isAlphanumeric c

end CodeAtlas.Text
