import CodeAtlas.Text.Ranges

/-!
# Printable characters

The characters that are written as themselves inside quotes: every assigned character that is
neither a control, a format, a private nor a separator character, the space apart (Unicode
version 14).
-/

namespace CodeAtlas.Text

def printableRanges : List (Nat × Nat) :=
  packedRanges
    [0x2c9119a193f51b1123c11f26927b1e1cd27b268138812e29643b186f1326a24e169d12c11174621b9a11c4a1bf48,
     0x1231311a25121712e13119131a29711471332245112212121712e2246132392512411842221924311712e222181,
     0x311922812f1311d52d1e16124133541c3332321112341336121a2a251243732221925121712e22218131771c241f,
     0x321a618111641372111913832a1313a228461316b1311d1d211a24126274131192511a12f1312e71a24212312741,
     0x24111724149241592411172415f92151138e4d1d11f14c14f44c119848421a26111522f111381511124d3d47a1c,
     0x1c41c13f1a18e55b71b961b11e61a61a21be1c21311d1c2c1938192e71b933c11a882621ae63a348218b2417911f,
     0x111111182624e26218ae55b181b25b77c31f37c181ec15f319d693f21e61a61b23d118927e31b63a45c1b525a314,
     0x719381e2778215115d55bd14823cac2d1b391aaf429c1f491f4931d13b22295f183829191322b1621e11f16d23f1,
     0x51112539b182f82c5bc196f3799dd15f1c1ac11be15b51cf21ae17f51c3a3ae1c1b913a4a1fe171717171717171,
     0x6942f1c2decc61a21fe47c171719626261a3c381cf21a21e196f14941b119e33e1b1ec61c1818e187861a37b38,
     0x1212b13a11c221d7173326262632fe428f154412b16b65a48176e26fd281fd1212111513a551c74e1da25de28c8c,
     0x121711f11c1b6c185844c44c61a22be5a1e44d13e55b53e194c43c1f6933d28a5e5f131d11b835d4351fb4a1e21f,
     0x23d131185216a22c478188153b3495212b68191819812f213215c112618d1915a1638181a2e194ef18b21711f11b,
     0x192f2c3c4e3a2e5a185819e22315a13f4ce1a185e76b1d6b6f1991a871c473a53b23d36e191c44f4818871971a43,
     0x5161232221a15121712e222181461a57b61b11f1411171895c12a1b2c11c8194f182a16d61a7391d517e194c419e,
     0x191c2213e12118212181c1ab1cc7c2f92f41f23b6e1a67a2b1d61a1b18d4a4e26e2ce1a181983e511bc29b53727,
     0x394ee1a761214d121661a1819121135c12171991e12e24833d1a1e15d11948f1991d1ab181983b1b25e21818e1a,
     0x2b52d1711a1a18e1a623e61a11a941a13f718f928ef9198f7fa928df1d1cb599c38c1b511df1ce1ebb1d6a1f12ef,
     0x199c8421a71931d51db4c8c69c1842935d4cb12171429bcf195a2bae181bff81e21b518829779419b1cd1bb1ae8,
     0x1151413c17118241189171111c14222122118f11ad28f39191af1c2c2ba18e2d1e81819a24f1a3ee7c1ec192f25e,
     0x41a419c5928238d11f1214172bc8157a293f588241a21e35d3ad51217229173c93f29a81f151f1afe24cc25ac173,
     0x49e26c29151352911a1114141714211211111111112112131111114161111411a11211213b1438a7d19c18c1ca92,
     0x19e223e185861a187841c1f141c71b91c1ec31d32851fb82ba61e271945c1d3d782de1a4d11f11f21f1c1cc45c,
     0x2fca18be68bf1ece91e1ba8a23be7188f9481abbc8288e1a4d6f12ab197181861a1a651b33d197353521e1c5ac,
     0x3e82deeeed19d9b]

def isPrintable (c : Char) : Bool :=
  inRanges printableRanges c.toNat

end CodeAtlas.Text
