import Mathlib

/-!
# Case-insensitive comparison of catalog names

`FastUnicodeCompare` of `Unicode/UnicodeWrappers.c` orders the names of an HFS Plus catalog.  Each
UTF-16 unit is folded through the two-level `gLowerCaseTable` of `Unicode/UCStringCompareData.h`;
units that fold to zero are ignorable, and zero is also the end-of-string sentinel.  The main result
identifies the loop with the lexicographic comparison of the folded, non-ignorable units, from which
the laws of a total preorder follow.
-/

namespace Darwin.Hfs

/-! ## The folding table

The source array has sixteen 16-bit entries on a row.  A row is kept here as one hexadecimal
literal, its first entry in the most significant digits. -/

/-- The rows of `gLowerCaseTable`: a high-byte table of sixteen rows, then ten subtables of sixteen
rows. -/
def gLowerCaseRows : Array ℕ := #[
  -- High-byte indices ( == 0 iff no case mapping and no ignorables )
  0x0100_0200_0000_0300_0400_0500_0000_0000_0000_0000_0000_0000_0000_0000_0000_0000,
  0x0600_0000_0000_0000_0000_0000_0000_0000_0000_0000_0000_0000_0000_0000_0000_0000,
  0x0700_0800_0000_0000_0000_0000_0000_0000_0000_0000_0000_0000_0000_0000_0000_0000,
  0x0000_0000_0000_0000_0000_0000_0000_0000_0000_0000_0000_0000_0000_0000_0000_0000,
  0x0000_0000_0000_0000_0000_0000_0000_0000_0000_0000_0000_0000_0000_0000_0000_0000,
  0x0000_0000_0000_0000_0000_0000_0000_0000_0000_0000_0000_0000_0000_0000_0000_0000,
  0x0000_0000_0000_0000_0000_0000_0000_0000_0000_0000_0000_0000_0000_0000_0000_0000,
  0x0000_0000_0000_0000_0000_0000_0000_0000_0000_0000_0000_0000_0000_0000_0000_0000,
  0x0000_0000_0000_0000_0000_0000_0000_0000_0000_0000_0000_0000_0000_0000_0000_0000,
  0x0000_0000_0000_0000_0000_0000_0000_0000_0000_0000_0000_0000_0000_0000_0000_0000,
  0x0000_0000_0000_0000_0000_0000_0000_0000_0000_0000_0000_0000_0000_0000_0000_0000,
  0x0000_0000_0000_0000_0000_0000_0000_0000_0000_0000_0000_0000_0000_0000_0000_0000,
  0x0000_0000_0000_0000_0000_0000_0000_0000_0000_0000_0000_0000_0000_0000_0000_0000,
  0x0000_0000_0000_0000_0000_0000_0000_0000_0000_0000_0000_0000_0000_0000_0000_0000,
  0x0000_0000_0000_0000_0000_0000_0000_0000_0000_0000_0000_0000_0000_0000_0000_0000,
  0x0000_0000_0000_0000_0000_0000_0000_0000_0000_0000_0000_0000_0000_0000_0900_0A00,
  -- Table 1 (for high byte 0x00)
  0xFFFF_0001_0002_0003_0004_0005_0006_0007_0008_0009_000A_000B_000C_000D_000E_000F,
  0x0010_0011_0012_0013_0014_0015_0016_0017_0018_0019_001A_001B_001C_001D_001E_001F,
  0x0020_0021_0022_0023_0024_0025_0026_0027_0028_0029_002A_002B_002C_002D_002E_002F,
  0x0030_0031_0032_0033_0034_0035_0036_0037_0038_0039_003A_003B_003C_003D_003E_003F,
  0x0040_0061_0062_0063_0064_0065_0066_0067_0068_0069_006A_006B_006C_006D_006E_006F,
  0x0070_0071_0072_0073_0074_0075_0076_0077_0078_0079_007A_005B_005C_005D_005E_005F,
  0x0060_0061_0062_0063_0064_0065_0066_0067_0068_0069_006A_006B_006C_006D_006E_006F,
  0x0070_0071_0072_0073_0074_0075_0076_0077_0078_0079_007A_007B_007C_007D_007E_007F,
  0x0080_0081_0082_0083_0084_0085_0086_0087_0088_0089_008A_008B_008C_008D_008E_008F,
  0x0090_0091_0092_0093_0094_0095_0096_0097_0098_0099_009A_009B_009C_009D_009E_009F,
  0x00A0_00A1_00A2_00A3_00A4_00A5_00A6_00A7_00A8_00A9_00AA_00AB_00AC_00AD_00AE_00AF,
  0x00B0_00B1_00B2_00B3_00B4_00B5_00B6_00B7_00B8_00B9_00BA_00BB_00BC_00BD_00BE_00BF,
  0x00C0_00C1_00C2_00C3_00C4_00C5_00E6_00C7_00C8_00C9_00CA_00CB_00CC_00CD_00CE_00CF,
  0x00F0_00D1_00D2_00D3_00D4_00D5_00D6_00D7_00F8_00D9_00DA_00DB_00DC_00DD_00FE_00DF,
  0x00E0_00E1_00E2_00E3_00E4_00E5_00E6_00E7_00E8_00E9_00EA_00EB_00EC_00ED_00EE_00EF,
  0x00F0_00F1_00F2_00F3_00F4_00F5_00F6_00F7_00F8_00F9_00FA_00FB_00FC_00FD_00FE_00FF,
  -- Table 2 (for high byte 0x01)
  0x0100_0101_0102_0103_0104_0105_0106_0107_0108_0109_010A_010B_010C_010D_010E_010F,
  0x0111_0111_0112_0113_0114_0115_0116_0117_0118_0119_011A_011B_011C_011D_011E_011F,
  0x0120_0121_0122_0123_0124_0125_0127_0127_0128_0129_012A_012B_012C_012D_012E_012F,
  0x0130_0131_0133_0133_0134_0135_0136_0137_0138_0139_013A_013B_013C_013D_013E_0140,
  0x0140_0142_0142_0143_0144_0145_0146_0147_0148_0149_014B_014B_014C_014D_014E_014F,
  0x0150_0151_0153_0153_0154_0155_0156_0157_0158_0159_015A_015B_015C_015D_015E_015F,
  0x0160_0161_0162_0163_0164_0165_0167_0167_0168_0169_016A_016B_016C_016D_016E_016F,
  0x0170_0171_0172_0173_0174_0175_0176_0177_0178_0179_017A_017B_017C_017D_017E_017F,
  0x0180_0253_0183_0183_0185_0185_0254_0188_0188_0256_0257_018C_018C_018D_01DD_0259,
  0x025B_0192_0192_0260_0263_0195_0269_0268_0199_0199_019A_019B_026F_0272_019E_0275,
  0x01A0_01A1_01A3_01A3_01A5_01A5_01A6_01A8_01A8_0283_01AA_01AB_01AD_01AD_0288_01AF,
  0x01B0_028A_028B_01B4_01B4_01B6_01B6_0292_01B9_01B9_01BA_01BB_01BD_01BD_01BE_01BF,
  0x01C0_01C1_01C2_01C3_01C6_01C6_01C6_01C9_01C9_01C9_01CC_01CC_01CC_01CD_01CE_01CF,
  0x01D0_01D1_01D2_01D3_01D4_01D5_01D6_01D7_01D8_01D9_01DA_01DB_01DC_01DD_01DE_01DF,
  0x01E0_01E1_01E2_01E3_01E5_01E5_01E6_01E7_01E8_01E9_01EA_01EB_01EC_01ED_01EE_01EF,
  0x01F0_01F3_01F3_01F3_01F4_01F5_01F6_01F7_01F8_01F9_01FA_01FB_01FC_01FD_01FE_01FF,
  -- Table 3 (for high byte 0x03)
  0x0300_0301_0302_0303_0304_0305_0306_0307_0308_0309_030A_030B_030C_030D_030E_030F,
  0x0310_0311_0312_0313_0314_0315_0316_0317_0318_0319_031A_031B_031C_031D_031E_031F,
  0x0320_0321_0322_0323_0324_0325_0326_0327_0328_0329_032A_032B_032C_032D_032E_032F,
  0x0330_0331_0332_0333_0334_0335_0336_0337_0338_0339_033A_033B_033C_033D_033E_033F,
  0x0340_0341_0342_0343_0344_0345_0346_0347_0348_0349_034A_034B_034C_034D_034E_034F,
  0x0350_0351_0352_0353_0354_0355_0356_0357_0358_0359_035A_035B_035C_035D_035E_035F,
  0x0360_0361_0362_0363_0364_0365_0366_0367_0368_0369_036A_036B_036C_036D_036E_036F,
  0x0370_0371_0372_0373_0374_0375_0376_0377_0378_0379_037A_037B_037C_037D_037E_037F,
  0x0380_0381_0382_0383_0384_0385_0386_0387_0388_0389_038A_038B_038C_038D_038E_038F,
  0x0390_03B1_03B2_03B3_03B4_03B5_03B6_03B7_03B8_03B9_03BA_03BB_03BC_03BD_03BE_03BF,
  0x03C0_03C1_03A2_03C3_03C4_03C5_03C6_03C7_03C8_03C9_03AA_03AB_03AC_03AD_03AE_03AF,
  0x03B0_03B1_03B2_03B3_03B4_03B5_03B6_03B7_03B8_03B9_03BA_03BB_03BC_03BD_03BE_03BF,
  0x03C0_03C1_03C2_03C3_03C4_03C5_03C6_03C7_03C8_03C9_03CA_03CB_03CC_03CD_03CE_03CF,
  0x03D0_03D1_03D2_03D3_03D4_03D5_03D6_03D7_03D8_03D9_03DA_03DB_03DC_03DD_03DE_03DF,
  0x03E0_03E1_03E3_03E3_03E5_03E5_03E7_03E7_03E9_03E9_03EB_03EB_03ED_03ED_03EF_03EF,
  0x03F0_03F1_03F2_03F3_03F4_03F5_03F6_03F7_03F8_03F9_03FA_03FB_03FC_03FD_03FE_03FF,
  -- Table 4 (for high byte 0x04)
  0x0400_0401_0452_0403_0454_0455_0456_0407_0458_0459_045A_045B_040C_040D_040E_045F,
  0x0430_0431_0432_0433_0434_0435_0436_0437_0438_0419_043A_043B_043C_043D_043E_043F,
  0x0440_0441_0442_0443_0444_0445_0446_0447_0448_0449_044A_044B_044C_044D_044E_044F,
  0x0430_0431_0432_0433_0434_0435_0436_0437_0438_0439_043A_043B_043C_043D_043E_043F,
  0x0440_0441_0442_0443_0444_0445_0446_0447_0448_0449_044A_044B_044C_044D_044E_044F,
  0x0450_0451_0452_0453_0454_0455_0456_0457_0458_0459_045A_045B_045C_045D_045E_045F,
  0x0461_0461_0463_0463_0465_0465_0467_0467_0469_0469_046B_046B_046D_046D_046F_046F,
  0x0471_0471_0473_0473_0475_0475_0476_0477_0479_0479_047B_047B_047D_047D_047F_047F,
  0x0481_0481_0482_0483_0484_0485_0486_0487_0488_0489_048A_048B_048C_048D_048E_048F,
  0x0491_0491_0493_0493_0495_0495_0497_0497_0499_0499_049B_049B_049D_049D_049F_049F,
  0x04A1_04A1_04A3_04A3_04A5_04A5_04A7_04A7_04A9_04A9_04AB_04AB_04AD_04AD_04AF_04AF,
  0x04B1_04B1_04B3_04B3_04B5_04B5_04B7_04B7_04B9_04B9_04BB_04BB_04BD_04BD_04BF_04BF,
  0x04C0_04C1_04C2_04C4_04C4_04C5_04C6_04C8_04C8_04C9_04CA_04CC_04CC_04CD_04CE_04CF,
  0x04D0_04D1_04D2_04D3_04D4_04D5_04D6_04D7_04D8_04D9_04DA_04DB_04DC_04DD_04DE_04DF,
  0x04E0_04E1_04E2_04E3_04E4_04E5_04E6_04E7_04E8_04E9_04EA_04EB_04EC_04ED_04EE_04EF,
  0x04F0_04F1_04F2_04F3_04F4_04F5_04F6_04F7_04F8_04F9_04FA_04FB_04FC_04FD_04FE_04FF,
  -- Table 5 (for high byte 0x05)
  0x0500_0501_0502_0503_0504_0505_0506_0507_0508_0509_050A_050B_050C_050D_050E_050F,
  0x0510_0511_0512_0513_0514_0515_0516_0517_0518_0519_051A_051B_051C_051D_051E_051F,
  0x0520_0521_0522_0523_0524_0525_0526_0527_0528_0529_052A_052B_052C_052D_052E_052F,
  0x0530_0561_0562_0563_0564_0565_0566_0567_0568_0569_056A_056B_056C_056D_056E_056F,
  0x0570_0571_0572_0573_0574_0575_0576_0577_0578_0579_057A_057B_057C_057D_057E_057F,
  0x0580_0581_0582_0583_0584_0585_0586_0557_0558_0559_055A_055B_055C_055D_055E_055F,
  0x0560_0561_0562_0563_0564_0565_0566_0567_0568_0569_056A_056B_056C_056D_056E_056F,
  0x0570_0571_0572_0573_0574_0575_0576_0577_0578_0579_057A_057B_057C_057D_057E_057F,
  0x0580_0581_0582_0583_0584_0585_0586_0587_0588_0589_058A_058B_058C_058D_058E_058F,
  0x0590_0591_0592_0593_0594_0595_0596_0597_0598_0599_059A_059B_059C_059D_059E_059F,
  0x05A0_05A1_05A2_05A3_05A4_05A5_05A6_05A7_05A8_05A9_05AA_05AB_05AC_05AD_05AE_05AF,
  0x05B0_05B1_05B2_05B3_05B4_05B5_05B6_05B7_05B8_05B9_05BA_05BB_05BC_05BD_05BE_05BF,
  0x05C0_05C1_05C2_05C3_05C4_05C5_05C6_05C7_05C8_05C9_05CA_05CB_05CC_05CD_05CE_05CF,
  0x05D0_05D1_05D2_05D3_05D4_05D5_05D6_05D7_05D8_05D9_05DA_05DB_05DC_05DD_05DE_05DF,
  0x05E0_05E1_05E2_05E3_05E4_05E5_05E6_05E7_05E8_05E9_05EA_05EB_05EC_05ED_05EE_05EF,
  0x05F0_05F1_05F2_05F3_05F4_05F5_05F6_05F7_05F8_05F9_05FA_05FB_05FC_05FD_05FE_05FF,
  -- Table 6 (for high byte 0x10)
  0x1000_1001_1002_1003_1004_1005_1006_1007_1008_1009_100A_100B_100C_100D_100E_100F,
  0x1010_1011_1012_1013_1014_1015_1016_1017_1018_1019_101A_101B_101C_101D_101E_101F,
  0x1020_1021_1022_1023_1024_1025_1026_1027_1028_1029_102A_102B_102C_102D_102E_102F,
  0x1030_1031_1032_1033_1034_1035_1036_1037_1038_1039_103A_103B_103C_103D_103E_103F,
  0x1040_1041_1042_1043_1044_1045_1046_1047_1048_1049_104A_104B_104C_104D_104E_104F,
  0x1050_1051_1052_1053_1054_1055_1056_1057_1058_1059_105A_105B_105C_105D_105E_105F,
  0x1060_1061_1062_1063_1064_1065_1066_1067_1068_1069_106A_106B_106C_106D_106E_106F,
  0x1070_1071_1072_1073_1074_1075_1076_1077_1078_1079_107A_107B_107C_107D_107E_107F,
  0x1080_1081_1082_1083_1084_1085_1086_1087_1088_1089_108A_108B_108C_108D_108E_108F,
  0x1090_1091_1092_1093_1094_1095_1096_1097_1098_1099_109A_109B_109C_109D_109E_109F,
  0x10D0_10D1_10D2_10D3_10D4_10D5_10D6_10D7_10D8_10D9_10DA_10DB_10DC_10DD_10DE_10DF,
  0x10E0_10E1_10E2_10E3_10E4_10E5_10E6_10E7_10E8_10E9_10EA_10EB_10EC_10ED_10EE_10EF,
  0x10F0_10F1_10F2_10F3_10F4_10F5_10C6_10C7_10C8_10C9_10CA_10CB_10CC_10CD_10CE_10CF,
  0x10D0_10D1_10D2_10D3_10D4_10D5_10D6_10D7_10D8_10D9_10DA_10DB_10DC_10DD_10DE_10DF,
  0x10E0_10E1_10E2_10E3_10E4_10E5_10E6_10E7_10E8_10E9_10EA_10EB_10EC_10ED_10EE_10EF,
  0x10F0_10F1_10F2_10F3_10F4_10F5_10F6_10F7_10F8_10F9_10FA_10FB_10FC_10FD_10FE_10FF,
  -- Table 7 (for high byte 0x20)
  0x2000_2001_2002_2003_2004_2005_2006_2007_2008_2009_200A_200B_0000_0000_0000_0000,
  0x2010_2011_2012_2013_2014_2015_2016_2017_2018_2019_201A_201B_201C_201D_201E_201F,
  0x2020_2021_2022_2023_2024_2025_2026_2027_2028_2029_0000_0000_0000_0000_0000_202F,
  0x2030_2031_2032_2033_2034_2035_2036_2037_2038_2039_203A_203B_203C_203D_203E_203F,
  0x2040_2041_2042_2043_2044_2045_2046_2047_2048_2049_204A_204B_204C_204D_204E_204F,
  0x2050_2051_2052_2053_2054_2055_2056_2057_2058_2059_205A_205B_205C_205D_205E_205F,
  0x2060_2061_2062_2063_2064_2065_2066_2067_2068_2069_0000_0000_0000_0000_0000_0000,
  0x2070_2071_2072_2073_2074_2075_2076_2077_2078_2079_207A_207B_207C_207D_207E_207F,
  0x2080_2081_2082_2083_2084_2085_2086_2087_2088_2089_208A_208B_208C_208D_208E_208F,
  0x2090_2091_2092_2093_2094_2095_2096_2097_2098_2099_209A_209B_209C_209D_209E_209F,
  0x20A0_20A1_20A2_20A3_20A4_20A5_20A6_20A7_20A8_20A9_20AA_20AB_20AC_20AD_20AE_20AF,
  0x20B0_20B1_20B2_20B3_20B4_20B5_20B6_20B7_20B8_20B9_20BA_20BB_20BC_20BD_20BE_20BF,
  0x20C0_20C1_20C2_20C3_20C4_20C5_20C6_20C7_20C8_20C9_20CA_20CB_20CC_20CD_20CE_20CF,
  0x20D0_20D1_20D2_20D3_20D4_20D5_20D6_20D7_20D8_20D9_20DA_20DB_20DC_20DD_20DE_20DF,
  0x20E0_20E1_20E2_20E3_20E4_20E5_20E6_20E7_20E8_20E9_20EA_20EB_20EC_20ED_20EE_20EF,
  0x20F0_20F1_20F2_20F3_20F4_20F5_20F6_20F7_20F8_20F9_20FA_20FB_20FC_20FD_20FE_20FF,
  -- Table 8 (for high byte 0x21)
  0x2100_2101_2102_2103_2104_2105_2106_2107_2108_2109_210A_210B_210C_210D_210E_210F,
  0x2110_2111_2112_2113_2114_2115_2116_2117_2118_2119_211A_211B_211C_211D_211E_211F,
  0x2120_2121_2122_2123_2124_2125_2126_2127_2128_2129_212A_212B_212C_212D_212E_212F,
  0x2130_2131_2132_2133_2134_2135_2136_2137_2138_2139_213A_213B_213C_213D_213E_213F,
  0x2140_2141_2142_2143_2144_2145_2146_2147_2148_2149_214A_214B_214C_214D_214E_214F,
  0x2150_2151_2152_2153_2154_2155_2156_2157_2158_2159_215A_215B_215C_215D_215E_215F,
  0x2170_2171_2172_2173_2174_2175_2176_2177_2178_2179_217A_217B_217C_217D_217E_217F,
  0x2170_2171_2172_2173_2174_2175_2176_2177_2178_2179_217A_217B_217C_217D_217E_217F,
  0x2180_2181_2182_2183_2184_2185_2186_2187_2188_2189_218A_218B_218C_218D_218E_218F,
  0x2190_2191_2192_2193_2194_2195_2196_2197_2198_2199_219A_219B_219C_219D_219E_219F,
  0x21A0_21A1_21A2_21A3_21A4_21A5_21A6_21A7_21A8_21A9_21AA_21AB_21AC_21AD_21AE_21AF,
  0x21B0_21B1_21B2_21B3_21B4_21B5_21B6_21B7_21B8_21B9_21BA_21BB_21BC_21BD_21BE_21BF,
  0x21C0_21C1_21C2_21C3_21C4_21C5_21C6_21C7_21C8_21C9_21CA_21CB_21CC_21CD_21CE_21CF,
  0x21D0_21D1_21D2_21D3_21D4_21D5_21D6_21D7_21D8_21D9_21DA_21DB_21DC_21DD_21DE_21DF,
  0x21E0_21E1_21E2_21E3_21E4_21E5_21E6_21E7_21E8_21E9_21EA_21EB_21EC_21ED_21EE_21EF,
  0x21F0_21F1_21F2_21F3_21F4_21F5_21F6_21F7_21F8_21F9_21FA_21FB_21FC_21FD_21FE_21FF,
  -- Table 9 (for high byte 0xFE)
  0xFE00_FE01_FE02_FE03_FE04_FE05_FE06_FE07_FE08_FE09_FE0A_FE0B_FE0C_FE0D_FE0E_FE0F,
  0xFE10_FE11_FE12_FE13_FE14_FE15_FE16_FE17_FE18_FE19_FE1A_FE1B_FE1C_FE1D_FE1E_FE1F,
  0xFE20_FE21_FE22_FE23_FE24_FE25_FE26_FE27_FE28_FE29_FE2A_FE2B_FE2C_FE2D_FE2E_FE2F,
  0xFE30_FE31_FE32_FE33_FE34_FE35_FE36_FE37_FE38_FE39_FE3A_FE3B_FE3C_FE3D_FE3E_FE3F,
  0xFE40_FE41_FE42_FE43_FE44_FE45_FE46_FE47_FE48_FE49_FE4A_FE4B_FE4C_FE4D_FE4E_FE4F,
  0xFE50_FE51_FE52_FE53_FE54_FE55_FE56_FE57_FE58_FE59_FE5A_FE5B_FE5C_FE5D_FE5E_FE5F,
  0xFE60_FE61_FE62_FE63_FE64_FE65_FE66_FE67_FE68_FE69_FE6A_FE6B_FE6C_FE6D_FE6E_FE6F,
  0xFE70_FE71_FE72_FE73_FE74_FE75_FE76_FE77_FE78_FE79_FE7A_FE7B_FE7C_FE7D_FE7E_FE7F,
  0xFE80_FE81_FE82_FE83_FE84_FE85_FE86_FE87_FE88_FE89_FE8A_FE8B_FE8C_FE8D_FE8E_FE8F,
  0xFE90_FE91_FE92_FE93_FE94_FE95_FE96_FE97_FE98_FE99_FE9A_FE9B_FE9C_FE9D_FE9E_FE9F,
  0xFEA0_FEA1_FEA2_FEA3_FEA4_FEA5_FEA6_FEA7_FEA8_FEA9_FEAA_FEAB_FEAC_FEAD_FEAE_FEAF,
  0xFEB0_FEB1_FEB2_FEB3_FEB4_FEB5_FEB6_FEB7_FEB8_FEB9_FEBA_FEBB_FEBC_FEBD_FEBE_FEBF,
  0xFEC0_FEC1_FEC2_FEC3_FEC4_FEC5_FEC6_FEC7_FEC8_FEC9_FECA_FECB_FECC_FECD_FECE_FECF,
  0xFED0_FED1_FED2_FED3_FED4_FED5_FED6_FED7_FED8_FED9_FEDA_FEDB_FEDC_FEDD_FEDE_FEDF,
  0xFEE0_FEE1_FEE2_FEE3_FEE4_FEE5_FEE6_FEE7_FEE8_FEE9_FEEA_FEEB_FEEC_FEED_FEEE_FEEF,
  0xFEF0_FEF1_FEF2_FEF3_FEF4_FEF5_FEF6_FEF7_FEF8_FEF9_FEFA_FEFB_FEFC_FEFD_FEFE_0000,
  -- Table 10 (for high byte 0xFF)
  0xFF00_FF01_FF02_FF03_FF04_FF05_FF06_FF07_FF08_FF09_FF0A_FF0B_FF0C_FF0D_FF0E_FF0F,
  0xFF10_FF11_FF12_FF13_FF14_FF15_FF16_FF17_FF18_FF19_FF1A_FF1B_FF1C_FF1D_FF1E_FF1F,
  0xFF20_FF41_FF42_FF43_FF44_FF45_FF46_FF47_FF48_FF49_FF4A_FF4B_FF4C_FF4D_FF4E_FF4F,
  0xFF50_FF51_FF52_FF53_FF54_FF55_FF56_FF57_FF58_FF59_FF5A_FF3B_FF3C_FF3D_FF3E_FF3F,
  0xFF40_FF41_FF42_FF43_FF44_FF45_FF46_FF47_FF48_FF49_FF4A_FF4B_FF4C_FF4D_FF4E_FF4F,
  0xFF50_FF51_FF52_FF53_FF54_FF55_FF56_FF57_FF58_FF59_FF5A_FF5B_FF5C_FF5D_FF5E_FF5F,
  0xFF60_FF61_FF62_FF63_FF64_FF65_FF66_FF67_FF68_FF69_FF6A_FF6B_FF6C_FF6D_FF6E_FF6F,
  0xFF70_FF71_FF72_FF73_FF74_FF75_FF76_FF77_FF78_FF79_FF7A_FF7B_FF7C_FF7D_FF7E_FF7F,
  0xFF80_FF81_FF82_FF83_FF84_FF85_FF86_FF87_FF88_FF89_FF8A_FF8B_FF8C_FF8D_FF8E_FF8F,
  0xFF90_FF91_FF92_FF93_FF94_FF95_FF96_FF97_FF98_FF99_FF9A_FF9B_FF9C_FF9D_FF9E_FF9F,
  0xFFA0_FFA1_FFA2_FFA3_FFA4_FFA5_FFA6_FFA7_FFA8_FFA9_FFAA_FFAB_FFAC_FFAD_FFAE_FFAF,
  0xFFB0_FFB1_FFB2_FFB3_FFB4_FFB5_FFB6_FFB7_FFB8_FFB9_FFBA_FFBB_FFBC_FFBD_FFBE_FFBF,
  0xFFC0_FFC1_FFC2_FFC3_FFC4_FFC5_FFC6_FFC7_FFC8_FFC9_FFCA_FFCB_FFCC_FFCD_FFCE_FFCF,
  0xFFD0_FFD1_FFD2_FFD3_FFD4_FFD5_FFD6_FFD7_FFD8_FFD9_FFDA_FFDB_FFDC_FFDD_FFDE_FFDF,
  0xFFE0_FFE1_FFE2_FFE3_FFE4_FFE5_FFE6_FFE7_FFE8_FFE9_FFEA_FFEB_FFEC_FFED_FFEE_FFEF,
  0xFFF0_FFF1_FFF2_FFF3_FFF4_FFF5_FFF6_FFF7_FFF8_FFF9_FFFA_FFFB_FFFC_FFFD_FFFE_FFFF]

/-- The entry of `gLowerCaseTable` at an index. -/
def gLowerCaseTable (i : ℕ) : UInt16 :=
  UInt16.ofNat (gLowerCaseRows.getD (i / 16) 0 >>> (16 * (15 - i % 16)))

/-- Fold one unit: a nonzero entry for its high byte is the index of the subtable for the low
byte; without a subtable the unit is already folded. -/
def foldUnit (c : UInt16) : UInt16 :=
  let temp := gLowerCaseTable (c >>> 8).toNat
  if temp ≠ 0 then gLowerCaseTable (temp.toNat + (c &&& 0x00FF).toNat) else c

/-! ## The comparison loop -/

/-- The inner loop: read units while there are any and the current folded value is zero. -/
def nextValidChar : UInt16 → List UInt16 → UInt16 × List UInt16
  | c, [] => (c, [])
  | c, unit :: str => if c = 0 then nextValidChar (foldUnit unit) str else (c, unit :: str)

/-- The units that take part in a comparison: folded, with the ignorable ones dropped. -/
def foldedUnits (str : List UInt16) : List UInt16 :=
  (str.map foldUnit).filter (· ≠ 0)

/-- The sign a C comparison routine returns for an order of its arguments. -/
def comparisonSign : Ordering → ℤ
  | .lt => -1
  | .eq => 0
  | .gt => 1

theorem foldedUnits_cons (unit : UInt16) (str : List UInt16) :
    foldedUnits (unit :: str) =
      if foldUnit unit = 0 then foldedUnits str else foldUnit unit :: foldedUnits str := by
  by_cases ignorable : foldUnit unit = 0 <;> simp [foldedUnits, ignorable]

private theorem nextValidChar_of_ne_zero {c : UInt16} (valid : c ≠ 0) (str : List UInt16) :
    nextValidChar c str = (c, str) := by
  cases str with
  | nil => rfl
  | cons unit str => simp [nextValidChar, valid]

/-- Started at zero, the inner loop stops at the first unit that is not ignorable, or returns zero
at the end of the string. -/
theorem nextValidChar_spec (str : List UInt16) :
    (nextValidChar 0 str = (0, []) ∧ foldedUnits str = []) ∨
      ∃ c rest, nextValidChar 0 str = (c, rest) ∧ c ≠ 0 ∧ rest.length < str.length ∧
        foldedUnits str = c :: foldedUnits rest := by
  induction str with
  | nil => exact .inl ⟨rfl, rfl⟩
  | cons unit str ih =>
    have step : nextValidChar 0 (unit :: str) = nextValidChar (foldUnit unit) str := by
      simp [nextValidChar]
    rw [step, foldedUnits_cons]
    by_cases ignorable : foldUnit unit = 0
    · rw [if_pos ignorable, ignorable]
      rcases ih with done | ⟨c, rest, next, valid, shorter, folded⟩
      · exact .inl done
      · exact .inr ⟨c, rest, next, valid, Nat.lt_succ_of_lt shorter, folded⟩
    · rw [if_neg ignorable, nextValidChar_of_ne_zero ignorable]
      exact .inr ⟨foldUnit unit, str, rfl, ignorable, Nat.lt_succ_self _, rfl⟩

private theorem nextValidChar_shorter {str : List UInt16} (valid : (nextValidChar 0 str).1 ≠ 0) :
    (nextValidChar 0 str).2.length < str.length := by
  rcases nextValidChar_spec str with ⟨next, -⟩ | ⟨c, rest, next, -, shorter, -⟩
  · rw [next] at valid
    exact absurd rfl valid
  · rw [next]
    exact shorter

/-- `FastUnicodeCompare`: advance both strings to their next valid characters and stop at the first
difference, or when both strings end together. -/
def fastUnicodeCompare (str1 str2 : List UInt16) : ℤ :=
  let next1 := nextValidChar 0 str1
  let next2 := nextValidChar 0 str2
  if next1.1 ≠ next2.1 then
    if next1.1 < next2.1 then -1 else 1
  else if _done : next1.1 = 0 then 0
  else fastUnicodeCompare next1.2 next2.2
termination_by str1.length
decreasing_by exact nextValidChar_shorter _done

/-! ## The order it computes -/

private theorem zero_lt_of_ne_zero {c : UInt16} (valid : c ≠ 0) : 0 < c :=
  UInt16.pos_iff_ne_zero.mpr valid

/-- The loop returns the sign of the lexicographic comparison of the folded units. -/
theorem fastUnicodeCompare_eq_sign (str1 str2 : List UInt16) :
    fastUnicodeCompare str1 str2 =
      comparisonSign (compare (foldedUnits str1) (foldedUnits str2)) := by
  induction length : str1.length using Nat.strong_induction_on generalizing str1 str2 with
  | _ n ih =>
    subst length
    rw [fastUnicodeCompare]
    rcases nextValidChar_spec str1 with
        ⟨next1, folded1⟩ | ⟨c1, rest1, next1, valid1, shorter, folded1⟩ <;>
      rcases nextValidChar_spec str2 with
        ⟨next2, folded2⟩ | ⟨c2, rest2, next2, valid2, -, folded2⟩ <;>
      rw [next1, next2, folded1, folded2]
    · rfl
    · have less := zero_lt_of_ne_zero valid2
      simp [valid2.symm, less, comparisonSign]
    · simp [valid1, comparisonSign]
    rw [List.compare_cons_cons]
    by_cases same : c1 = c2
    · subst same
      simp [valid1, ih rest1.length shorter rest1 rest2 rfl]
    rcases UInt16.lt_or_lt_of_ne same with less | greater
    · have first : compare c1 c2 = .lt := Std.compare_eq_lt.mpr less
      simp [same, less, first, comparisonSign]
    · have first : compare c1 c2 = .gt := Std.compare_eq_gt.mpr greater
      simp [same, UInt16.lt_asymm greater, first, comparisonSign]

private theorem comparisonSign_swap (order : Ordering) :
    comparisonSign order.swap = -comparisonSign order := by
  cases order <;> rfl

private theorem comparisonSign_eq_zero (order : Ordering) :
    comparisonSign order = 0 ↔ order = .eq := by
  cases order <;> simp [comparisonSign]

private theorem comparisonSign_nonpos (order : Ordering) :
    comparisonSign order ≤ 0 ↔ order.isLE := by
  cases order <;> simp [comparisonSign]

/-- Strings compare equal when their folded units are the same. -/
theorem fastUnicodeCompare_eq_zero_iff (str1 str2 : List UInt16) :
    fastUnicodeCompare str1 str2 = 0 ↔ foldedUnits str1 = foldedUnits str2 := by
  rw [fastUnicodeCompare_eq_sign, comparisonSign_eq_zero]
  exact Std.compare_eq_iff_eq

/-- `FastUnicodeCompare` is the sign of the lexicographic comparison of the folded, non-ignorable
units, and therefore the comparison of a total preorder: reflexive, antisymmetric in sign,
transitive, and zero exactly on strings with the same folded units. -/
theorem fastUnicodeCompare_total_preorder (s t u : List UInt16) :
    fastUnicodeCompare s t = comparisonSign (compare (foldedUnits s) (foldedUnits t)) ∧
      fastUnicodeCompare s s = 0 ∧
      fastUnicodeCompare t s = -fastUnicodeCompare s t ∧
      (fastUnicodeCompare s t ≤ 0 → fastUnicodeCompare t u ≤ 0 → fastUnicodeCompare s u ≤ 0) ∧
      (fastUnicodeCompare s t = 0 ↔ foldedUnits s = foldedUnits t) := by
  simp only [fastUnicodeCompare_eq_sign, comparisonSign_nonpos, comparisonSign_eq_zero]
  refine ⟨trivial, Std.ReflOrd.compare_self, ?_, ?_, Std.compare_eq_iff_eq⟩
  · rw [Std.OrientedOrd.eq_swap (a := foldedUnits t), comparisonSign_swap]
  · exact Std.TransOrd.isLE_trans

end Darwin.Hfs
